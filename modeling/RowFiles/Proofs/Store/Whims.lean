/-
Tables that may refuse any call.

`Whims` say which calls a store refuses, each without effect, and for what reason; the store counts the calls it is asked
for, and keeps the one that it refused last (`Toll`). Over a table in the state such a store serves the table, and any call
that may be refused may fail (`Whims.rows_serve`). Where nothing is refused, nothing fails (`Whims.not_may_calm`).

`Blames` shows with a state which call is to blame, if one is. A store accounts for its calls (`Rows.Accounts`) if each is
made on the table that is shown, or is refused and to blame, and a table with whims does (`Whims.rows_account`).
-/
import RowFiles.Proofs.Store.Tables

namespace RowFiles

open Run

/-- the reason for which the `n`th call of a store is refused, if it is -/
abbrev Whims := Nat → Call → Option Error

/-- how many calls a store has been asked for, and which of them it refused last -/
structure Toll where
  asked : Nat := 0
  refused : Option Call := none

namespace Whims

/-- nothing is refused -/
def calm : Whims := fun _ _ => none

/-- a call is refused sometimes, for a reason -/
def Gives (w : Whims) (q : Call) (e : Error) : Prop := ∃ n, w n q = some e

/-- a call is refused sometimes -/
def May (w : Whims) (q : Call) : Prop := ∃ n e, w n q = some e

theorem not_may_calm (q : Call) : ¬ calm.May q := by
  rintro ⟨n, e, refused⟩
  cases refused

theorem not_calm_gives (q : Call) (e : Error) : ¬ calm.Gives q e := by
  rintro ⟨n, refused⟩
  cases refused

variable {σ : Type} (toll : σ → Toll) (pay : Toll → σ → σ)

/-- lets a call through or refuses it -/
def ask (w : Whims) (q : Call) : Run σ Unit := fun s =>
  match w (toll s).asked q with
  | some e => (.error e, pay ⟨(toll s).asked + 1, some q⟩ s)
  | none => (.ok (), pay ⟨(toll s).asked + 1, (toll s).refused⟩ s)

/-- a table in the state, as a store that refuses what it likes -/
def rows (get : σ → Table Column) (set : Table Column → σ → σ) (w : Whims) (width : Nat) : Rows (Run σ) :=
  (Table.rows (part get set) width).guarded (w.ask toll pay)

variable {toll pay}

theorem ask_of_some {w : Whims} {q : Call} {s : σ} {e : Error} (refused : w (toll s).asked q = some e) :
    w.ask toll pay q s = (.error e, pay ⟨(toll s).asked + 1, some q⟩ s) := by
  rw [ask, refused]

theorem ask_of_none {w : Whims} {q : Call} {s : σ} (granted : w (toll s).asked q = none) :
    w.ask toll pay q s = (.ok (), pay ⟨(toll s).asked + 1, (toll s).refused⟩ s) := by
  rw [ask, granted]

section

variable {get : σ → Table Column} {set : Table Column → σ → σ} {Shows : σ → Table Column → Prop}

theorem ask_tries (hpay : ∀ x s t, Shows s t → Shows (pay x s) t) (w : Whims) (q : Call) (t : Table Column) :
    Tries Shows (w.ask toll pay q) t (w.May q) fun _ u => u = t := by
  intro s hs
  cases answer : w (toll s).asked q with
  | some e =>
    rw [ask_of_some answer]
    exact ⟨t, hpay _ s t hs, .inr ⟨⟨_, e, answer⟩, ⟨e, rfl⟩, rfl⟩⟩
  | none =>
    rw [ask_of_none answer]
    exact ⟨t, hpay _ s t hs, .inl ⟨(), rfl, rfl⟩⟩

variable (hget : ∀ s t, Shows s t → get s = t) (hpay : ∀ x s t, Shows s t → Shows (pay x s) t) (w : Whims) (width : Nat)

include hget hpay

/-- **A table serves** as far as its calls are not refused. -/
theorem rows_serve (hset : ∀ s t u, Shows s t → Shows (set u s) u) :
    (rows toll pay get set w width).Serves Shows Eq w.May :=
  (Table.rows_serve hget hset width w.May).guarded (ask_tries hpay w)

theorem rows_trim (hset : ∀ s t u, Shows s t → Shows (set u s) u) : (rows toll pay get set w width).Trims Shows w.May :=
  (Table.rows_trim hget hset width w.May).guarded (ask_tries hpay w)

theorem rows_list : (rows toll pay get set w width).Lists Shows w.May :=
  (Table.rows_list hget width w.May).guarded (ask_tries hpay w)

end

end Whims

/-! ## Blame -/

section

variable {σ ν : Type}

/-- what a state shows, and the call that was refused last if it is to blame -/
def Blames (toll : σ → Toll) (Shown : σ → ν → Prop) (q : Option Call) (s : σ) (v : ν) : Prop :=
  Shown s v ∧ ∀ c, q = some c → (toll s).refused = some c

/-- each call is made on the table that is shown, or it is refused without effect, for a reason that may be given, and is
to blame -/
structure Rows.Accounts (r : Rows (Run σ)) (R : Option Call → σ → ν → Prop) (may : Call → Error → Prop)
    (table : ν → Table Column) (change : Table Column → ν → ν) : Prop where
  put : ∀ k c x v, Answers R (r.put k c x) (.put k c x) (may (.put k c x)) v () (change ((table v).put k c x) v)
  delete : ∀ k v, Answers R (r.delete k) (.delete k) (may (.delete k)) v () (change ((table v).delete k) v)
  deleteColumn : ∀ k c v, Answers R (r.deleteColumn k c) (.deleteColumn k c) (may (.deleteColumn k c)) v ()
    (change ((table v).deleteColumn k c) v)
  hasKey : ∀ k v, Answers R (r.hasKey k) (.hasKey k) (may (.hasKey k)) v ((table v).hasKey k) v

/-- a call is to blame, which has been refused for the reason `e` -/
def Blamed (may : Call → Error → Prop) (c : Call) (q : Option Call) (e : Error) : Prop := q = some c ∧ may c e

theorem blamed {may : Call → Error → Prop} {c : Call} {e : Error} (refused : may c e) : Blamed may c (some c) e :=
  ⟨rfl, refused⟩

/-- how a run ends that may break off, whatever is to blame -/
theorem Run.Breaks.shown {α : Type} {toll : σ → Toll} {Shown : σ → ν → Prop} {x : Run σ α} {v : ν} {P : α → ν → Prop}
    {E : Option Call → Error → ν → Prop} (h : Breaks (Blames toll Shown) x v P E) :
    Ends Shown x v fun o w => (∃ a, o = .ok a ∧ P a w) ∨ ∃ q e, o = .error e ∧ E q e w := by
  intro s hs
  rcases h s ⟨hs, nofun⟩ with ⟨a, w, ran, shown, hp⟩ | ⟨e, q, w, ran, shown, he⟩
  · exact ⟨w, shown.1, .inl ⟨a, ran, hp⟩⟩
  · exact ⟨w, shown.1, .inr ⟨q, e, ran, he⟩⟩

namespace Whims

variable {toll : σ → Toll} {pay : Toll → σ → σ} {Shown : σ → ν → Prop}

/-- a call that is asked for is made, or refused and blamed -/
theorem asked_answers {α : Type} (hpay : ∀ x s v, Shown s v → Shown (pay x s) v) (htoll : ∀ x s, toll (pay x s) = x)
    (w : Whims) (q : Call) {x : Run σ α} {a : α} {v u : ν} (made : ∀ s, Shown s v → ∃ s', x s = (.ok a, s') ∧ Shown s' u) :
    Answers (Blames toll Shown) (w.ask toll pay q >>= fun _ => x) q (w.Gives q) v a u := by
  intro s hs
  cases answer : w (toll s).asked q with
  | some e =>
    rw [bind_of_error (ask_of_some answer)]
    refine .inr ⟨e, some q, v, rfl, ⟨hpay _ s v hs.1, ?_⟩, rfl, ⟨_, answer⟩, rfl⟩
    rintro _ ⟨⟩
    rw [htoll]
  | none =>
    rw [bind_of_ok (ask_of_none answer)]
    obtain ⟨s', ran, shown⟩ := made _ (hpay _ s v hs.1)
    rw [ran]
    exact .inl ⟨a, u, rfl, ⟨shown, nofun⟩, rfl, rfl⟩

/-- **A table with whims accounts** for its calls. -/
theorem rows_account {get : σ → Table Column} {set : Table Column → σ → σ} {table : ν → Table Column}
    {change : Table Column → ν → ν} (hget : ∀ s v, Shown s v → get s = table v)
    (hpay : ∀ x s v, Shown s v → Shown (pay x s) v) (htoll : ∀ x s, toll (pay x s) = x)
    (hset : ∀ s v t, Shown s v → Shown (set t s) (change t v)) (w : Whims) (width : Nat) :
    (rows toll pay get set w width).Accounts (Blames toll Shown) w.Gives table change := by
  constructor
  case put =>
    intro k c x v
    apply asked_answers hpay htoll
    intro s hs
    refine ⟨_, rfl, ?_⟩
    rw [← hget s v hs]
    exact hset s v _ hs
  case delete =>
    intro k v
    apply asked_answers hpay htoll
    intro s hs
    rw [Table.rows_delete]
    refine ⟨_, rfl, ?_⟩
    rw [← hget s v hs]
    exact hset s v _ hs
  case deleteColumn =>
    intro k c v
    apply asked_answers hpay htoll
    intro s hs
    refine ⟨_, rfl, ?_⟩
    rw [← hget s v hs]
    exact hset s v _ hs
  case hasKey =>
    intro k v
    apply asked_answers hpay htoll
    intro s hs
    rw [Table.rows_hasKey]
    refine ⟨s, ?_, hs⟩
    rw [← hget s v hs]
    rfl

end Whims

end

end RowFiles
