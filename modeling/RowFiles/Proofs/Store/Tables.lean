/-
What a table is as a map, and stores that answer as one.

- `Table.row_congr`, `Table.values_congr`: a row is decided by its cells.
- `Table.mem_keys`, `Table.keys_ascending`: the keys are those of the rows that have a cell, each once, ascending.
- `Table.walk_eq`: what is met on a walk over a row is the row. So are the values and columns of a row told, rows found and
  rows removed (`Table.rows_delete`, `Table.rows_hasKey`, `Table.rows_values`).
- `Rows.Serves`: every call about a row answers as the table that the state shows would, and changes it as the table
  would be changed. A table in the state is such a store (`Table.rows_serve`).
- `Rows.Serves.call_matches`, `Rows.Serves.run_matches`: calls and runs of calls are answered as by the plain table.
-/
import Mathlib.Data.List.Nodup
import RowFiles.Proofs.Runs
import RowFiles.Store.Table

namespace RowFiles

/-! ## Lists without repeats -/

section Lists

variable {α : Type}

theorem nodup_eraseDups [DecidableEq α] (l : List α) : l.eraseDups.Nodup := by
  match l with
  | [] => simp
  | a :: l =>
    have shorter : (l.filter fun b => !b == a).length < l.length + 1 := Nat.lt_succ_of_le (List.length_filter_le _ _)
    rw [List.eraseDups_cons, List.nodup_cons]
    exact ⟨by simp, nodup_eraseDups _⟩
termination_by l.length

theorem eraseReps_loop [BEq α] (a : α) (l acc : List α) :
    List.eraseRepsBy.loop (· == ·) a l acc = acc.reverse ++ (a :: l).eraseReps := by
  induction l generalizing a acc with
  | nil => simp [List.eraseReps, List.eraseRepsBy, List.eraseRepsBy.loop]
  | cons b l ih =>
    have head : (a :: b :: l).eraseReps = List.eraseRepsBy.loop (· == ·) a (b :: l) [] := rfl
    rw [head, List.eraseRepsBy.loop, List.eraseRepsBy.loop]
    cases a == b
    · simp only [ih]
      simp
    · simp only [ih]
      simp

theorem eraseReps_cons_cons [BEq α] (a b : α) (l : List α) :
    (a :: b :: l).eraseReps = if a == b then (a :: l).eraseReps else a :: (b :: l).eraseReps := by
  have head : (a :: b :: l).eraseReps = List.eraseRepsBy.loop (· == ·) a (b :: l) [] := rfl
  rw [head, List.eraseRepsBy.loop]
  cases a == b
  · simp [eraseReps_loop]
  · simp [eraseReps_loop]

@[simp] theorem mem_eraseReps [DecidableEq α] {a : α} {l : List α} : a ∈ l.eraseReps ↔ a ∈ l := by
  match l with
  | [] => simp [List.eraseReps, List.eraseRepsBy]
  | [b] => simp [List.eraseReps, List.eraseRepsBy, List.eraseRepsBy.loop]
  | b :: c :: l =>
    rw [eraseReps_cons_cons]
    split_ifs with h
    · obtain rfl : b = c := by simpa using h
      rw [mem_eraseReps]
      simp
    · rw [List.mem_cons, mem_eraseReps, ← List.mem_cons]
termination_by l.length

/-- dropping the repeats of neighbours makes an ascending list strictly ascending -/
theorem eraseReps_ascending [DecidableEq α] {lt : α → α → Prop} {l : List α} (h : l.Pairwise fun a b => lt a b ∨ a = b)
    (trans : ∀ a b c, lt a b → lt b c → lt a c) : l.eraseReps.Pairwise lt := by
  match l with
  | [] => simp [List.eraseReps, List.eraseRepsBy]
  | [b] => simp [List.eraseReps, List.eraseRepsBy, List.eraseRepsBy.loop]
  | b :: c :: l =>
    rw [List.pairwise_cons] at h
    obtain ⟨hb, hcl⟩ := h
    rw [eraseReps_cons_cons]
    split_ifs with e
    · obtain rfl : b = c := by simpa using e
      exact eraseReps_ascending hcl trans
    · rw [List.pairwise_cons]
      refine ⟨fun x hx => ?_, eraseReps_ascending hcl trans⟩
      have hbc : lt b c := (hb c List.mem_cons_self).resolve_right (by simpa using e)
      rw [mem_eraseReps, List.mem_cons] at hx
      rcases hx with rfl | hx
      · exact hbc
      · rcases (List.pairwise_cons.1 hcl).1 x hx with hcx | rfl
        · exact trans _ _ _ hbc hcx
        · exact hbc
termination_by l.length

theorem takeWhile_eq_filter {p : α → Bool} {l : List α} (closed : l.Pairwise fun a b => p b → p a) :
    l.takeWhile p = l.filter p := by
  induction l with
  | nil => rfl
  | cons a l ih =>
    obtain ⟨earlier, closed⟩ := List.pairwise_cons.1 closed
    cases here : p a with
    | true => rw [List.takeWhile_cons_of_pos here, List.filter_cons_of_pos here, ih closed]
    | false =>
      have fails : ¬ p a := by simp [here]
      have none : l.filter p = [] := List.filter_eq_nil_iff.2 fun b there held => fails (earlier b there held)
      rw [List.takeWhile_cons_of_neg fails, List.filter_cons_of_neg fails, none]

theorem dropWhile_eq_filter {p : α → Bool} {l : List α} (closed : l.Pairwise fun a b => p b → p a) :
    l.dropWhile p = l.filter (!p ·) := by
  induction l with
  | nil => rfl
  | cons a l ih =>
    obtain ⟨earlier, closed⟩ := List.pairwise_cons.1 closed
    cases here : p a with
    | true => rw [List.dropWhile_cons_of_pos here, List.filter_cons_of_neg (by simp [here]), ih closed]
    | false =>
      have fails : ¬ p a := by simp [here]
      have all : l.filter (!p ·) = l := List.filter_eq_self.2 fun b there => by
        simpa using fun held => fails (earlier b there held)
      rw [List.dropWhile_cons_of_neg fails, List.filter_cons_of_pos (by simp [here]), all]

/-- strictly ascending lists are equal if they have the same members -/
theorem eq_of_ascending {lt : α → α → Prop} {l l' : List α} (irrefl : ∀ a, ¬ lt a a)
    (trans : ∀ a b c, lt a b → lt b c → lt a c) (h : l.Pairwise lt) (h' : l'.Pairwise lt) (mem : ∀ a, a ∈ l ↔ a ∈ l') :
    l = l' := by
  have distinct : ∀ {a b : α}, lt a b → a ≠ b := fun {a b} hab e => irrefl b (e ▸ hab)
  have perm : l.Perm l' := (List.perm_ext_iff_of_nodup (h.imp distinct) (h'.imp distinct)).2 mem
  exact perm.eq_of_pairwise (fun a b _ _ hab hba => absurd (trans a b a hab hba) (irrefl a)) h h'

end Lists

namespace Table

variable {κ : Type} [Ord κ] [Std.TransOrd κ]

/-! ## Rows and keys -/

/-- the keys come in strictly ascending order -/
theorem keys_ascending (t : Table κ) : t.keys.Pairwise fun a b => compare a b = .lt := by
  refine eraseReps_ascending ?_ fun a b c => Std.TransCmp.lt_trans
  rw [List.pairwise_map]
  refine List.Pairwise.imp (fun {p q} h => ?_) (Std.ExtTreeMap.ordered_keys_toList (t := t.cells))
  rw [Address.compare_eq] at h
  cases e : compare p.1.key q.1.key with
  | lt => exact .inl rfl
  | eq => exact .inr (Std.LawfulEqOrd.eq_of_compare e)
  | gt => rw [e] at h; cases h

/-- the cells of a row come in strictly ascending order of their columns -/
theorem row_ascending (t : Table κ) (k : Key) : (t.row k).Pairwise fun p q => compare p.1 q.1 = .lt := by
  rw [row, List.pairwise_map, List.pairwise_filter]
  refine List.Pairwise.imp (fun {p q} h hp hq => ?_) (Std.ExtTreeMap.ordered_keys_toList (t := t.cells))
  rw [decide_eq_true_eq] at hp hq
  rw [Address.compare_eq, hp, hq, Std.ReflOrd.compare_self] at h
  exact h

theorem nodup_row (t : Table κ) (k : Key) : (t.row k).Nodup := by
  refine List.Pairwise.imp (fun {p q} h e => ?_) (t.row_ascending k)
  rw [e, Std.ReflOrd.compare_self] at h
  cases h

theorem nodup_keys (t : Table κ) : t.keys.Nodup := by
  refine List.Pairwise.imp (fun {a b} h e => ?_) t.keys_ascending
  rw [e, Std.ReflOrd.compare_self] at h
  cases h

/-- what is met between two addresses is all that lies between them -/
theorem span_eq (t : Table κ) (first last : Address κ) :
    t.span first last = t.toList.filter fun p => (compare first p.1).isLE && (compare p.1 last).isLE := by
  have ascending := Std.ExtTreeMap.ordered_keys_toList (t := t.cells)
  have before : t.toList.Pairwise fun p q => (compare q.1 first).isLT → (compare p.1 first).isLT :=
    ascending.imp fun {p q} less lt => by
      rw [Ordering.isLT_iff_eq_lt] at lt ⊢
      exact Std.TransCmp.lt_trans less lt
  have upTo : t.toList.Pairwise fun p q => (compare q.1 last).isLE → (compare p.1 last).isLE :=
    ascending.imp fun {p q} less le => Std.TransCmp.isLE_trans (Ordering.isLE_of_eq_lt less) le
  rw [span, dropWhile_eq_filter before, takeWhile_eq_filter (upTo.filter _), List.filter_filter]
  refine List.filter_congr fun p _ => ?_
  rw [Bool.and_comm, Std.OrientedOrd.eq_swap (a := p.1)]
  cases compare first p.1 <;> rfl

variable [Std.LawfulEqOrd κ]

/-- a row is the ascending list of its cells -/
theorem row_eq {t : Table κ} {k : Key} {l : List (κ × Bytes)} (ascending : l.Pairwise fun p q => compare p.1 q.1 = .lt)
    (mem : ∀ c v, (c, v) ∈ l ↔ t.get k c = some v) : t.row k = l := by
  refine eq_of_ascending (fun p => ?_) (fun p q r => Std.TransCmp.lt_trans) (t.row_ascending k) ascending fun p => ?_
  · rw [Std.ReflOrd.compare_self]
    nofun
  · rw [mem_row, mem]

/-- a row is decided by its cells, whatever its key -/
theorem row_congr {t u : Table κ} {k l : Key} (h : ∀ c, t.get k c = u.get l c) : t.row k = u.row l :=
  row_eq (u.row_ascending l) fun c v => by rw [mem_row, h]

theorem values_congr {t u : Table κ} {k l : Key} (h : ∀ c, t.get k c = u.get l c) : t.values k = u.values l := by
  rw [values, values, row_congr h]

theorem mem_values {t : Table κ} {k : Key} {v : Bytes} : v ∈ t.values k ↔ ∃ c, t.get k c = some v := by
  simp only [values, List.mem_map, Prod.exists]
  constructor
  · intro hw
    obtain ⟨c, w, hm, rfl⟩ := hw
    exact ⟨c, mem_row.1 hm⟩
  · intro hw
    obtain ⟨c, h⟩ := hw
    exact ⟨c, v, mem_row.2 h, rfl⟩

theorem hasKey_congr {t u : Table κ} {k l : Key} (h : ∀ c, t.get k c = u.get l c) : t.hasKey k = u.hasKey l := by
  rw [Bool.eq_iff_iff, hasKey_iff, hasKey_iff]
  simp only [h]

theorem hasKey_eq_false {t : Table κ} {k : Key} : t.hasKey k = false ↔ ∀ c, t.get k c = none := by
  rw [← Bool.not_eq_true, hasKey_iff]
  constructor
  · intro h c
    cases e : t.get k c with
    | none => rfl
    | some v => exact absurd ⟨c, v, e⟩ h
  · intro h hw
    obtain ⟨c, v, e⟩ := hw
    rw [h] at e
    cases e

theorem mem_keys {t : Table κ} {k : Key} : k ∈ t.keys ↔ ∃ c v, t.get k c = some v := by
  simp only [keys, mem_eraseReps, List.mem_map, Prod.exists]
  constructor
  · intro hw
    obtain ⟨⟨k', c⟩, v, hm, rfl⟩ := hw
    exact ⟨c, v, mem_toList.1 hm⟩
  · intro hw
    obtain ⟨c, v, h⟩ := hw
    exact ⟨⟨k, c⟩, v, mem_toList.2 h, rfl⟩

/-! ## Walks over rows -/

/-- an address lies between the first and the last column of a row just if it is one of the row's -/
theorem between_iff {k : Key} {a : Address Column} :
    ((compare ⟨k, 0⟩ a).isLE && (compare a ⟨k, UInt64.ofNat (UInt64.size - 1)⟩).isLE) = true ↔ a.key = k := by
  have first : (compare (0 : Column) a.column).isLE := Std.isLE_compare.2 UInt64.zero_le
  have last : (compare a.column (UInt64.ofNat (UInt64.size - 1))).isLE :=
    Std.isLE_compare.2 (UInt64.le_iff_toNat_le.2 (Nat.le_of_lt_succ a.column.toNat_lt))
  rw [Address.compare_eq, Address.compare_eq, Std.OrientedOrd.eq_swap (a := a.key), Bool.and_eq_true]
  cases order : compare k a.key with
  | lt | gt =>
    have apart : a.key ≠ k := by
      rintro rfl
      rw [Std.ReflOrd.compare_self] at order
      cases order
    simp [apart]
  | eq =>
    rw [show k = a.key from Std.LawfulEqOrd.eq_of_compare order]
    exact ⟨fun _ => rfl, fun _ => ⟨first, last⟩⟩

/-- a walk over a row meets the cells of the row and no others, wherever the keys of other rows lie -/
theorem walk_eq (t : Table Column) (k : Key) : t.walk k = t.toList.filter fun p => p.1.key = k := by
  rw [walk, span_eq]
  exact List.filter_congr fun _ _ => Bool.eq_iff_iff.2 (between_iff.trans decide_eq_true_iff.symm)

theorem values_walk (t : Table Column) (k : Key) : (t.walk k).map Prod.snd = t.values k := by
  rw [walk_eq, values, row, List.map_map]
  rfl

theorem walkColumns_eq (t : Table Column) (k : Key) : t.walkColumns k = t.columns k := by
  rw [walkColumns, walk_eq, columns, row, List.map_map]
  rfl

theorem hasKey_walk (t : Table Column) (k : Key) : (!(t.walk k).isEmpty) = t.hasKey k := by
  rw [walk_eq, hasKey, Bool.eq_iff_iff]
  simp

theorem get_without (t : Table Column) (cells : List (Address Column × Bytes)) (k : Key) (c : Column) :
    (t.without cells).get k c = if (⟨k, c⟩ : Address Column) ∈ cells.map Prod.fst then none else t.get k c := by
  induction cells generalizing t with
  | nil => rfl
  | cons p cells ih =>
    have named : (⟨k, c⟩ : Address Column) = p.1 ↔ p.1.key = k ∧ p.1.column = c := by
      rw [eq_comm, Address.ext_iff]
    rw [without, List.foldl_cons, ← without, ih, get_deleteColumn, ← ite_or]
    exact if_congr (by rw [List.map_cons, List.mem_cons, named, or_comm]) rfl rfl

/-- what is removed on a walk over a row is the row -/
theorem without_walk (t : Table Column) (k : Key) : t.without (t.walk k) = t.delete k := by
  refine ext_get fun l c => ?_
  rw [get_without, get_delete]
  have met : (⟨l, c⟩ : Address Column) ∈ (t.walk k).map Prod.fst ↔ k = l ∧ ∃ v, t.get l c = some v := by
    simp only [walk_eq, List.mem_map, List.mem_filter, decide_eq_true_eq, Prod.exists]
    constructor
    · rintro ⟨_, v, ⟨member, rfl⟩, rfl⟩
      exact ⟨rfl, v, mem_toList.1 member⟩
    · rintro ⟨rfl, v, cell⟩
      exact ⟨_, v, ⟨mem_toList.2 cell, rfl⟩, rfl⟩
  by_cases same : k = l
  · cases cell : t.get l c with
    | none => simp [same]
    | some v => rw [if_pos (met.2 ⟨same, v, cell⟩), if_pos same]
  · rw [if_neg fun h => same (met.1 h).1, if_neg same]

section Walking

variable {m : Type → Type} [Monad m] (p : Part m (Table Column)) (width : Nat) (k : Key)

theorem rows_delete : (rows p width).delete k = p.modify (·.delete k) :=
  congrArg p.modify (funext fun t => t.without_walk k)

theorem rows_hasKey : (rows p width).hasKey k = (·.hasKey k) <$> p.read :=
  congrArg (· <$> p.read) (funext fun t => t.hasKey_walk k)

theorem rows_values : (rows p width).values k = (·.values k) <$> p.read :=
  congrArg (· <$> p.read) (funext fun t => t.values_walk k)

end Walking

end Table

/-! ## Stores that answer as tables -/

section Serves

open Run

variable {τ : Type}

/-- What is asked of a store: each call about a row answers from the table `t` that the state shows, and leaves a state
that shows the table changed by the call. `scan` says how the values that are found in a row may differ from its cells in
ascending order. Calls of which `failing` holds may also fail, without effect. -/
structure Rows.Serves (r : Rows (Run τ)) (Shows : τ → Table Column → Prop) (scan : List Bytes → List Bytes → Prop)
    (failing : Call → Prop) : Prop where
  put : ∀ k c v t, Tries Shows (r.put k c v) t (failing (.put k c v)) fun _ u => u = t.put k c v
  get : ∀ k c t, Tries Shows (r.get k c) t (failing (.get k c)) fun a u => a = t.get k c ∧ u = t
  delete : ∀ k t, Tries Shows (r.delete k) t (failing (.delete k)) fun _ u => u = t.delete k
  hasKey : ∀ k t, Tries Shows (r.hasKey k) t (failing (.hasKey k)) fun a u => a = t.hasKey k ∧ u = t
  values : ∀ k t, Tries Shows (r.values k) t (failing (.values k)) fun a u => scan a (t.values k) ∧ u = t
  sync : ∀ t, Tries Shows r.sync t (failing .sync) fun _ u => u = t

/-- the store removes single cells -/
def Rows.Trims (r : Rows (Run τ)) (Shows : τ → Table Column → Prop) (failing : Call → Prop) : Prop :=
  ∀ k c t, Tries Shows (r.deleteColumn k c) t (failing (.deleteColumn k c)) fun _ u => u = t.deleteColumn k c

/-- the store can list its rows: each that has a cell, once -/
def Rows.Lists (r : Rows (Run τ)) (Shows : τ → Table Column → Prop) (failing : Call → Prop) : Prop :=
  ∀ t, Tries Shows r.keys t (failing .keys) fun ks u => (ks.Nodup ∧ ∀ k, k ∈ ks ↔ k ∈ t.keys) ∧ u = t

/-- no call fails -/
def never : Call → Prop := fun _ => False

theorem Rows.Serves.scan_mono {r : Rows (Run τ)} {Shows : τ → Table Column → Prop}
    {scan scan' : List Bytes → List Bytes → Prop} {failing : Call → Prop} (h : r.Serves Shows scan failing)
    (hs : ∀ a b, scan a b → scan' a b) : r.Serves Shows scan' failing :=
  { h with values := fun k t => (h.values k t).mono fun _ _ ha => ha.imp (hs _ _) id }

theorem Rows.Serves.failing_mono {r : Rows (Run τ)} {Shows : τ → Table Column → Prop}
    {scan : List Bytes → List Bytes → Prop} {failing failing' : Call → Prop} (h : r.Serves Shows scan failing)
    (hf : ∀ q, failing q → failing' q) : r.Serves Shows scan failing' where
  put k c v t := (h.put k c v t).weaken (hf _)
  get k c t := (h.get k c t).weaken (hf _)
  delete k t := (h.delete k t).weaken (hf _)
  hasKey k t := (h.hasKey k t).weaken (hf _)
  values k t := (h.values k t).weaken (hf _)
  sync t := (h.sync t).weaken (hf _)

theorem Rows.Trims.failing_mono {r : Rows (Run τ)} {Shows : τ → Table Column → Prop} {failing failing' : Call → Prop}
    (h : r.Trims Shows failing) (hf : ∀ q, failing q → failing' q) : r.Trims Shows failing' :=
  fun k c t => (h k c t).weaken (hf _)

/-- the calls of a store on a component of the state -/
def Rows.within {σ : Type} (get : σ → τ) (set : τ → σ → σ) (r : Rows (Run τ)) : Rows (Run σ) :=
  @Rows.lift _ _ ⟨fun x => Run.within get set x⟩ r

section Within

variable {σ : Type} {get : σ → τ} {set : τ → σ → σ} {S : τ → Table Column → Prop} {R : σ → Table Column → Prop}
  {r : Rows (Run τ)} {failing : Call → Prop}

/-- a component that is a store serves as one -/
theorem Rows.Serves.within {scan : List Bytes → List Bytes → Prop} (h : r.Serves S scan failing)
    (hget : ∀ s t, R s t → S (get s) t) (hset : ∀ s a t u, R s t → S a u → R (set a s) u) :
    (r.within get set).Serves R scan failing where
  put k c v t := (h.put k c v t).within hget hset
  get k c t := (h.get k c t).within hget hset
  delete k t := (h.delete k t).within hget hset
  hasKey k t := (h.hasKey k t).within hget hset
  values k t := (h.values k t).within hget hset
  sync t := (h.sync t).within hget hset

theorem Rows.Trims.within (h : r.Trims S failing) (hget : ∀ s t, R s t → S (get s) t)
    (hset : ∀ s a t u, R s t → S a u → R (set a s) u) : (r.within get set).Trims R failing :=
  fun k c t => (h k c t).within hget hset

end Within

/-- the calls of a store, each made once `before` has let it through -/
def Rows.guarded {m : Type → Type} [Monad m] (r : Rows m) (before : Call → m Unit) : Rows m where
  width := r.width
  put k c v := do before (.put k c v); r.put k c v
  get k c := do before (.get k c); r.get k c
  delete k := do before (.delete k); r.delete k
  deleteColumn k c := do before (.deleteColumn k c); r.deleteColumn k c
  hasKey k := do before (.hasKey k); r.hasKey k
  values k := do before (.values k); r.values k
  keys := do before .keys; r.keys
  sync := do before .sync; r.sync

/-- a guarded store serves the same table, if what comes before a call changes nothing that is shown -/
theorem Rows.Serves.guarded {r : Rows (Run τ)} {Shows : τ → Table Column → Prop} {scan : List Bytes → List Bytes → Prop}
    {failing : Call → Prop} {before : Call → Run τ Unit} (serves : r.Serves Shows scan failing)
    (stops : ∀ q t, Tries Shows (before q) t (failing q) fun _ u => u = t) :
    (r.guarded before).Serves Shows scan failing where
  put k c v t := (stops _ t).after (serves.put k c v t)
  get k c t := (stops _ t).after (serves.get k c t)
  delete k t := (stops _ t).after (serves.delete k t)
  hasKey k t := (stops _ t).after (serves.hasKey k t)
  values k t := (stops _ t).after (serves.values k t)
  sync t := (stops _ t).after (serves.sync t)

theorem Rows.Trims.guarded {r : Rows (Run τ)} {Shows : τ → Table Column → Prop} {failing : Call → Prop}
    {before : Call → Run τ Unit} (trims : r.Trims Shows failing)
    (stops : ∀ q t, Tries Shows (before q) t (failing q) fun _ u => u = t) : (r.guarded before).Trims Shows failing :=
  fun k c t => (stops _ t).after (trims k c t)

theorem Rows.Lists.guarded {r : Rows (Run τ)} {Shows : τ → Table Column → Prop} {failing : Call → Prop}
    {before : Call → Run τ Unit} (lists : r.Lists Shows failing)
    (stops : ∀ q t, Tries Shows (before q) t (failing q) fun _ u => u = t) : (r.guarded before).Lists Shows failing :=
  fun t => (stops _ t).after (lists t)

variable {get : τ → Table Column} {set : Table Column → τ → τ} {Shows : τ → Table Column → Prop}

/-- **A table in the state serves as a store**, of which no call fails. -/
theorem Table.rows_serve (hget : ∀ s t, Shows s t → get s = t) (hset : ∀ s t u, Shows s t → Shows (set u s) u)
    (width : Nat) (failing : Call → Prop) : (Table.rows (part get set) width).Serves Shows Eq failing where
  put _ _ _ _ := Yields.tries fun s hs => ⟨_, hset s _ _ hs, (), rfl, by rw [hget s _ hs]⟩
  get _ _ _ := Yields.tries fun s hs => ⟨_, hs, _, rfl, by rw [hget s _ hs], rfl⟩
  delete _ _ := by
    rw [rows_delete]
    exact Yields.tries fun s hs => ⟨_, hset s _ _ hs, (), rfl, by rw [hget s _ hs]⟩
  hasKey _ _ := by
    rw [rows_hasKey]
    exact Yields.tries fun s hs => ⟨_, hs, _, rfl, by rw [hget s _ hs], rfl⟩
  values _ _ := by
    rw [rows_values]
    exact Yields.tries fun s hs => ⟨_, hs, _, rfl, by rw [hget s _ hs], rfl⟩
  sync _ := Yields.tries fun _ hs => ⟨_, hs, (), rfl, rfl⟩

theorem Table.rows_trim (hget : ∀ s t, Shows s t → get s = t) (hset : ∀ s t u, Shows s t → Shows (set u s) u)
    (width : Nat) (failing : Call → Prop) : (Table.rows (part get set) width).Trims Shows failing := fun _ _ _ =>
  Yields.tries fun s hs => ⟨_, hset s _ _ hs, (), rfl, by rw [hget s _ hs]⟩

theorem Table.rows_list (hget : ∀ s t, Shows s t → get s = t) (width : Nat) (failing : Call → Prop) :
    (Table.rows (part get set) width).Lists Shows failing := fun t =>
  Yields.tries fun s hs => ⟨t, hs, _, rfl, by rw [hget s t hs]; exact ⟨⟨t.nodup_keys, fun _ => Iff.rfl⟩, rfl⟩⟩

/-- a table by itself as a store -/
def Table.plainRows (width : Nat) : Rows (Run (Table Column)) := Table.rows (part id fun t _ => t) width

theorem Table.plainRows_delete (width : Nat) (k : Key) (t : Table Column) :
    (plainRows width).call (.delete k) t = (.ok .done, t.delete k) :=
  congrArg (Prod.mk _) (t.without_walk k)

theorem Table.plainRows_hasKey (width : Nat) (k : Key) (t : Table Column) :
    (plainRows width).call (.hasKey k) t = (.ok (.flag (t.hasKey k)), t) :=
  congrArg (fun b => (Except.ok (Answer.flag b), t)) (t.hasKey_walk k)

theorem Table.plainRows_values (width : Nat) (k : Key) (t : Table Column) :
    (plainRows width).call (.values k) t = (.ok (.values (t.values k)), t) :=
  congrArg (fun vs => (Except.ok (Answer.values vs), t)) (t.values_walk k)

theorem Table.plainRows_serve {width : Nat} {failing : Call → Prop} : (plainRows width).Serves Eq Eq failing :=
  rows_serve (fun _ _ h => h) (fun _ _ _ _ => rfl) width failing

theorem Table.plainRows_trim {width : Nat} {failing : Call → Prop} : (plainRows width).Trims Eq failing :=
  rows_trim (fun _ _ h => h) (fun _ _ _ _ => rfl) width failing

/-! ### Calls as data -/

/-- two answers to one call: the same, but for the order of cells and of keys, of which the first names none twice -/
def Answer.Matches : Answer → Answer → Prop
  | .keys ks, .keys ls => ks.Nodup ∧ ∀ k, k ∈ ks ↔ k ∈ ls
  | .values us, .values vs => us.Perm vs
  | a, b => a = b

theorem Table.plainRows_list {width : Nat} {failing : Call → Prop} : (plainRows width).Lists Eq failing :=
  rows_list (fun _ _ h => h) width failing

section Matches

variable {r : Rows (Run τ)} {failing : Call → Prop}

/-- a store that serves a table, and can trim and list its rows, answers each call as the plain table -/
theorem Rows.Serves.call_matches (serves : r.Serves Shows List.Perm failing) (trims : r.Trims Shows failing)
    (lists : r.Lists Shows failing) (width : Nat) (q : Call) (t : Table Column) :
    ∃ b u, (Table.plainRows width).call q t = (.ok b, u) ∧
      Tries Shows (r.call q) t (failing q) fun a w => a.Matches b ∧ w = u := by
  cases q with
  | put k c v => exact ⟨.done, t.put k c v, rfl, ((serves.put k c v t).mono fun _ _ hw => ⟨rfl, hw⟩).then_pure⟩
  | get k c =>
    refine ⟨.cell (t.get k c), t, rfl, ((serves.get k c t).mono ?_).map⟩
    rintro _ _ ⟨rfl, rfl⟩
    exact ⟨rfl, rfl⟩
  | delete k =>
    exact ⟨.done, t.delete k, Table.plainRows_delete .., ((serves.delete k t).mono fun _ _ hw => ⟨rfl, hw⟩).then_pure⟩
  | deleteColumn k c => exact ⟨.done, t.deleteColumn k c, rfl, ((trims k c t).mono fun _ _ hw => ⟨rfl, hw⟩).then_pure⟩
  | hasKey k =>
    refine ⟨.flag (t.hasKey k), t, Table.plainRows_hasKey .., ((serves.hasKey k t).mono ?_).map⟩
    rintro _ _ ⟨rfl, rfl⟩
    exact ⟨rfl, rfl⟩
  | values k => exact ⟨.values (t.values k), t, Table.plainRows_values .., (serves.values k t).map⟩
  | keys => exact ⟨.keys t.keys, t, rfl, (lists t).map⟩
  | sync => exact ⟨.done, t, rfl, ((serves.sync t).mono fun _ _ hw => ⟨rfl, hw⟩).then_pure⟩

/-- **Run after run**: where no call fails, all calls of a run are answered as by the plain table. -/
theorem Rows.Serves.run_matches (serves : r.Serves Shows List.Perm never) (trims : r.Trims Shows never)
    (lists : r.Lists Shows never) (width : Nat) (qs : List Call) (t : Table Column) :
    ∃ bs u, qs.mapM (Table.plainRows width).call t = (.ok bs, u) ∧
      Yields Shows (qs.mapM r.call) t fun as w => List.Forall₂ Answer.Matches as bs ∧ w = u := by
  induction qs generalizing t with
  | nil => exact ⟨[], t, rfl, yields_pure [] ⟨.nil, rfl⟩⟩
  | cons q qs ih =>
    obtain ⟨b, t', plain, told⟩ := serves.call_matches trims lists width q t
    obtain ⟨bs, u, plainRest, toldRest⟩ := ih t'
    refine ⟨b :: bs, u, ?_, ?_⟩
    · rw [List.mapM_cons, bind_of_ok plain, bind_of_ok plainRest, pure_apply]
    · rw [List.mapM_cons]
      refine (told.yields id).bind ?_
      rintro a _ ⟨ha, rfl⟩
      refine toldRest.bind ?_
      rintro as _ ⟨has, rfl⟩
      exact yields_pure _ ⟨.cons ha has, rfl⟩

end Matches

end Serves

end RowFiles
