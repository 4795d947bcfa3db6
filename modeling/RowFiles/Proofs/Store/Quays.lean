/-
Links into a table that is shared by caches.

On a quay each store has links into one shared table, and a cache of its own in front of it. `Quay.Stowed` says which plain
tables a quay stands for. A cell may lie in the cache of its store only, so what the shared table has of a row need not be
what the store has.

- `Quay.Stowed.called`: what a store does to its own rows leaves what the others stand for, and all that is theirs
  (`Quay.Spares`).
- `Quay.Stowed.handedOver`: where a link is moved to another store, that store finds the row as the shared table has it.
-/
import RowFiles.Proofs.Store.Footprints
import RowFiles.Proofs.Store.Links

namespace RowFiles

/-- a yard all of whose stores are linked, with a cache of its own for each of them -/
structure Quay extends Yard where
  caches : Nat → CacheState := fun _ => {}

namespace Quay

/-- a store has a row in the shared table -/
def Owned (z : Quay) (i : Nat) (q : Key) : Prop := ∃ k, z.row i k = some q

/-- what the shared table has of a cell of a store -/
def beneath (z : Quay) (i : Nat) (k : Key) (c : Column) : Option Bytes := (z.row i k).bind (z.shared.get · c)

/-- a quay stands for a table for each store, as far as the caches of the stores in `G` go; `P` is the shared table once
all that is marked is written -/
structure Stowed (G : Nat → Prop) (fresh : Nat → Nat → Key) (z : Quay) (P : Table Column) (D : Nat → Table Column) :
    Prop where
  wired : Wired (fun _ => true) fresh { z.toYard with shared := P } D
  /-- a cache has cells of its own rows only -/
  own : ∀ i, G i → (z.caches i).Within (z.Owned i)
  /-- a cache and the shared table stand for the rows of the store -/
  stands : ∀ i, G i → ∃ Q, Coherent [] (z.caches i) z.shared Q ∧ ∀ q, z.Owned i q → ∀ c, Q.get q c = P.get q c
  /-- every row has a key -/
  covered : ∀ {q c v}, z.shared.get q c = some v → ∃ i, z.Owned i q

/-- all that belongs to stores other than `i` is as it was -/
structure Spares (i : Nat) (z z' : Quay) : Prop where
  rows : ∀ m, m ≠ i → ∀ k, z'.row m k = z.row m k
  caches : ∀ m, m ≠ i → z'.caches m = z.caches m
  cells : ∀ m, m ≠ i → ∀ q, z.Owned m q → ∀ c, z'.shared.get q c = z.shared.get q c

@[refl] theorem Spares.refl (i : Nat) (z : Quay) : Spares i z z := ⟨fun _ _ _ => rfl, fun _ _ => rfl, fun _ _ _ _ _ => rfl⟩

theorem Spares.trans {i : Nat} {x y z : Quay} (h : Spares i x y) (h' : Spares i y z) : Spares i x z where
  rows m other k := (h'.rows m other k).trans (h.rows m other k)
  caches m other := (h'.caches m other).trans (h.caches m other)
  cells m other q owned c := by
    obtain ⟨k, there⟩ := owned
    exact (h'.cells m other q ⟨k, (h.rows m other k).trans there⟩ c).trans (h.cells m other q ⟨k, there⟩ c)

theorem Spares.beneath {i m : Nat} {z z' : Quay} (h : Spares i z z') (other : m ≠ i) (k : Key) (c : Column) :
    z'.beneath m k c = z.beneath m k c := by
  rw [Quay.beneath, Quay.beneath, h.rows m other]
  cases there : z.row m k with
  | none => rfl
  | some q => exact h.cells m other q ⟨k, there⟩ c

theorem spares_link (z : Quay) (i : Nat) (k q : Key) (m : Nat) :
    Spares i z { z with toYard := { z.link i k q with made := m } } where
  rows _ other _ := (z.row_link ..).trans (if_neg fun e => other e.1.symm)
  caches _ _ := rfl
  cells _ _ _ _ _ := rfl

theorem spares_unlink (z : Quay) (i : Nat) (k : Key) : Spares i z { z with toYard := z.unlink i k } where
  rows _ other _ := (z.row_unlink ..).trans (if_neg fun e => other e.1.symm)
  caches _ _ := rfl
  cells _ _ _ _ _ := rfl

/-- what store `i` shows to its cache -/
def seen (z : Quay) (i : Nat) : Layer CacheState Unit := ⟨z.caches i, z.shared, ()⟩

/-- after a call by store `i` that leaves its cache and the shared table as `v` shows -/
def after (z : Quay) (i : Nat) (v : Layer CacheState Unit) : Quay :=
  { z with shared := v.beneath, caches := Function.update z.caches i v.held }

/-- after key `l` of store `j` is given the link of key `k` of store `i`, which loses it -/
def handOver (z : Quay) (i : Nat) (k : Key) (j : Nat) (l q : Key) : Quay := { z with toYard := (z.link j l q).unlink i k }

section

variable {z : Quay} {i j m : Nat} {k l q : Key}

theorem row_handOver (k' : Key) : (z.handOver i k j l q).row m k' =
    if i = m ∧ k = k' then none else if j = m ∧ l = k' then some q else z.row m k' := by
  rw [handOver, Yard.row_unlink, Yard.row_link]

theorem owned_taken (other : i ≠ j) : (z.handOver i k j l q).Owned j q :=
  ⟨l, by rw [row_handOver, if_neg fun e => other e.1, if_pos ⟨rfl, rfl⟩]⟩

/-- a row that is not handed over and is not what its new key had before keeps its key -/
theorem owned_handOver {q' : Key} (there : z.row i k = some q) (owned : z.Owned m q') (stays : ¬ (m = i ∧ q' = q))
    (vacant : z.row j l ≠ some q') : (z.handOver i k j l q).Owned m q' := by
  obtain ⟨k', there'⟩ := owned
  refine ⟨k', ?_⟩
  rw [row_handOver, if_neg fun e => stays ?_, if_neg fun e => vacant ?_, there']
  · rw [e.1, e.2, there']
  · obtain ⟨rfl, rfl⟩ := e
    exact ⟨rfl, Option.some.inj (there'.symm.trans there)⟩

end

namespace Stowed

variable {G : Nat → Prop} {fresh : Nat → Nat → Key} {z : Quay} {P Q Q' : Table Column} {D : Nat → Table Column} {i j : Nat}
  {k l q : Key} {v : Layer CacheState Unit}

theorem empty (G : Nat → Prop) (fresh : Nat → Nat → Key) : Stowed G fresh {} .empty fun _ => .empty where
  wired := Wired.empty _ fresh
  own _ _ a u cached := by simp [CacheState.value?] at cached
  stands _ _ := ⟨.empty, .new _, fun _ _ _ => rfl⟩
  covered h := by simp at h

section

variable (h : Stowed G fresh z P D)

include h

theorem apart (there : z.row i k = some q) (there' : z.row j l = some q) : i = j ∧ k = l := h.wired.apart there there'

/-- the cache of a store and the shared table stand for a plain table, in which are the rows of the store -/
theorem owns (tends : G i) :
    ∃ Q, (z.seen i).Owns (z.Owned i) Q () ∧ ∀ q, z.Owned i q → ∀ c, Q.get q c = P.get q c := by
  obtain ⟨Q, coherent, agrees⟩ := h.stands i tends
  exact ⟨Q, ⟨⟨coherent, rfl⟩, h.own i tends⟩, agrees⟩

/-- no two stores have the same row -/
theorem not_owned (owned : z.Owned i q) (other : j ≠ i) : ¬ z.Owned j q := by
  intro owned'
  obtain ⟨k, there⟩ := owned
  obtain ⟨l, there'⟩ := owned'
  exact other (h.apart there' there).1

/-- a store has what is in its row, be it written or not -/
theorem get_row (there : z.row i k = some q) (c : Column) : (D i).get k c = P.get q c := h.wired.get_row rfl there c

/-- the cells of a row that are not marked are in the shared table as the store has them -/
theorem get_clean (tends : G i) (there : z.row i k = some q) {c : Column} (clean : ⟨q, c⟩ ∉ (z.caches i).marks) :
    z.shared.get q c = (D i).get k c := by
  obtain ⟨Q, coherent, agrees⟩ := h.stands i tends
  rw [h.get_row there, ← agrees q ⟨k, there⟩]
  exact coherent.clean ⟨q, c⟩ clean List.not_mem_nil

/-- nothing is left anywhere of a row that is empty -/
theorem blank (tends : G i) (there : z.row i k = some q) (empty : ∀ c, (D i).get k c = none) (c : Column) :
    (z.caches i).value? ⟨q, c⟩ = none ∧ z.shared.get q c = none := by
  obtain ⟨Q, coherent, agrees⟩ := h.stands i tends
  have none : Q.get q c = none := by rw [agrees q ⟨k, there⟩, ← h.get_row there, empty]
  have uncached : (z.caches i).value? ⟨q, c⟩ = .none := by
    cases cached : (z.caches i).value? ⟨q, c⟩ with
    | none => rfl
    | some u => cases none.symm.trans (coherent.shadow ⟨q, c⟩ u cached)
  exact ⟨uncached, (coherent.get_of_absent uncached).trans none⟩

/-! ### Links that are made and dropped -/

/-- nothing is in the shared table of the row that is drawn next -/
theorem get_fresh (distinct : ∀ {v w m n}, fresh v m = fresh w n → m = n) (w : Nat) (c : Column) :
    z.shared.get (fresh w z.made) c = none := by
  cases cell : z.shared.get (fresh w z.made) c with
  | none => rfl
  | some u =>
    obtain ⟨_, _, e⟩ := h.covered cell
    exact absurd e (h.wired.row_ne_fresh distinct w)

/-- a key that has no row is linked to a new one -/
theorem grown (distinct : ∀ {v w m n}, fresh v m = fresh w n → m = n) (w : Nat) (unlinked : z.row i k = none) :
    Stowed G fresh { z with toYard := { z.link i k (fresh w z.made) with made := z.made + 1 } } P D := by
  have new {j l} : z.row j l ≠ some (fresh w z.made) := h.wired.row_ne_fresh distinct w
  have row (j : Nat) (l : Key) : ({ z.link i k (fresh w z.made) with made := z.made + 1 } : Yard).row j l =
      if i = j ∧ k = l then some (fresh w z.made) else z.row j l := z.row_link i j k l _
  have kept {j q} (owned : z.Owned j q) :
      Owned { z with toYard := { z.link i k (fresh w z.made) with made := z.made + 1 } } j q := by
    obtain ⟨l, there⟩ := owned
    refine ⟨l, (row j l).trans ?_⟩
    rw [if_neg fun here => ?_, there]
    obtain ⟨rfl, rfl⟩ := here
    rw [unlinked] at there
    cases there
  refine ⟨h.wired.grow distinct w unlinked, fun m hm a u cached => kept (h.own m hm a u cached), fun m hm => ?_,
    fun {q c u} cell => ?_⟩
  · obtain ⟨Q, coherent, agrees⟩ := h.stands m hm
    refine ⟨Q, coherent, fun q owned c => ?_⟩
    obtain ⟨l, there⟩ := owned
    rw [row] at there
    split_ifs at there with here
    · -- nothing is anywhere of the new row
      obtain rfl := Option.some.inj there
      have uncached : (z.caches m).value? ⟨fresh w z.made, c⟩ = none :=
        CacheState.Within.value?_eq_none (h.own m hm) fun ⟨_, e⟩ => new e
      rw [← coherent.get_of_absent uncached, h.get_fresh distinct w]
      exact (h.wired.get_fresh distinct w c).symm
    · exact agrees q ⟨l, there⟩ c
  · obtain ⟨m, owned⟩ := h.covered cell
    exact ⟨m, kept owned⟩

/-- a key whose row is empty loses its link -/
theorem unlinked (tends : G i) (empty : ∀ c, (D i).get k c = none) :
    Stowed G fresh { z with toYard := z.unlink i k } P D := by
  have kept {m q} (owned : z.Owned m q) (filled : ¬ z.row i k = some q) :
      Owned { z with toYard := z.unlink i k } m q := by
    obtain ⟨l, there⟩ := owned
    refine ⟨l, (z.row_unlink i m k l).trans ?_⟩
    rw [if_neg fun here => filled ?_, there]
    rw [here.1, here.2, there]
  refine ⟨h.wired.unlink empty rfl, fun m hm a u cached => ?_, fun m hm => ?_, fun {q c u} cell => ?_⟩
  · have owned := h.own m hm a u cached
    refine kept owned fun there => ?_
    obtain ⟨l, there'⟩ := owned
    obtain ⟨rfl, rfl⟩ := h.apart there there'
    cases (h.blank tends there empty a.column).1.symm.trans cached
  · obtain ⟨Q, coherent, agrees⟩ := h.stands m hm
    refine ⟨Q, coherent, fun q owned c => ?_⟩
    obtain ⟨l, there⟩ := owned
    rw [z.row_unlink] at there
    split_ifs at there
    exact agrees q ⟨l, there⟩ c
  · obtain ⟨m, owned⟩ := h.covered cell
    refine ⟨m, kept owned fun there => ?_⟩
    cases (h.blank tends there empty c).2.symm.trans cell

end

/-! ### Calls -/

section

variable (h : Stowed G fresh z P D) (before : (z.seen i).Owns (z.Owned i) Q ()) (owns : v.Owns (z.Owned i) Q' ())

include h before owns

theorem spares (same : ∀ q, ¬ z.Owned i q → ∀ c, Q'.get q c = Q.get q c) : Spares i z (z.after i v) where
  rows _ _ _ := rfl
  caches _ other := Function.update_of_ne other ..
  cells _ other q owned c := before.beneath_same owns (h.not_owned owned other.symm) (same q (h.not_owned owned other.symm) c)

/-- **A call by one store** about its own rows leaves what the others stand for. -/
theorem called {P' : Table Column} {D' : Nat → Table Column} (same : ∀ q, ¬ z.Owned i q → ∀ c, Q'.get q c = Q.get q c)
    (wired : Wired (fun _ => true) fresh { z.toYard with shared := P' } D')
    (kept : ∀ q, ¬ z.Owned i q → ∀ c, P'.get q c = P.get q c) (agrees : ∀ q, z.Owned i q → ∀ c, Q'.get q c = P'.get q c) :
    Stowed G fresh (z.after i v) P' D' := by
  have spared := h.spares before owns same
  refine ⟨wired, fun m hm => ?_, fun m hm => ?_, fun {q c u} cell => ?_⟩
  · by_cases here : m = i
    · subst here
      simp only [after, Function.update_self]
      exact owns.within
    · rw [spared.caches m here]
      exact h.own m hm
  · by_cases here : m = i
    · subst here
      refine ⟨Q', ?_, agrees⟩
      simp only [after, Function.update_self]
      exact owns.coherent
    · obtain ⟨R, coherent', agrees'⟩ := h.stands m hm
      rw [spared.caches m here]
      have there (a : Address Column) (u : Bytes) (cached : (z.caches m).value? a = some u) :
          (z.after i v).shared.get a.key a.column = z.shared.get a.key a.column :=
        spared.cells m here a.key (h.own m hm a u cached) a.column
      obtain ⟨S, stands, moved⟩ := coherent'.moved_beneath there
      refine ⟨S, stands, fun q owned c => ?_⟩
      rw [moved ⟨q, c⟩ (spared.cells m here q owned c), agrees' q owned, kept q (h.not_owned owned (Ne.symm here))]
  · by_cases here : z.Owned i q
    · exact ⟨i, here⟩
    · rw [after, before.beneath_same owns here (same q here c)] at cell
      exact h.covered cell

/-- a call that only asks -/
theorem asked (agrees : ∀ q, z.Owned i q → ∀ c, Q.get q c = P.get q c) (same : Q' = Q) : Stowed G fresh (z.after i v) P D := by
  subst same
  exact h.called before owns (fun _ _ _ => rfl) h.wired (fun _ _ _ => rfl) agrees

/-- a call that changes one row -/
theorem changed (agrees : ∀ q, z.Owned i q → ∀ c, Q.get q c = P.get q c) (there : z.row i k = some q) {t : Table Column}
    (others : ∀ q', q ≠ q' → ∀ c, Q'.get q' c = Q.get q' c) (rest : ∀ l, k ≠ l → ∀ c, t.get l c = (D i).get l c)
    (same : ∀ c, t.get k c = Q'.get q c) :
    Stowed G fresh (z.after i v) (P.adopt q Q' q) (Function.update D i t) := by
  have ne {q' : Key} (other : ¬ z.Owned i q') : q ≠ q' := fun e => other ⟨k, e ▸ there⟩
  refine h.called before owns (fun q' other => others q' (ne other)) ?_ (fun q' other c => ?_) fun q' owned c => ?_
  · refine h.wired.rewrite rfl there (fun q' e c => ?_) rest fun c => ?_
    · rw [Table.get_adopt, if_neg e]
    · rw [Table.get_adopt, if_pos rfl, same]
  · rw [Table.get_adopt, if_neg (ne other)]
  · rw [Table.get_adopt]
    split_ifs with here
    · rw [here]
    · rw [others q' here, agrees q' owned]

end

/-! ### Rows that change hands -/

/-- **A row is handed over** with its link to a key of another store that has no cells. What the store that takes it finds
there is what the shared table has of it: what its last store has not written stays behind in the cache of that store. -/
theorem handedOver (h : Stowed G fresh z P D) (dest : G j) (other : i ≠ j) (there : z.row i k = some q)
    (empty : ∀ c, (D j).get l c = none) {G' : Nat → Prop} (left : ∀ m, G' m → G m ∧ m ≠ i) :
    Stowed G' fresh (z.handOver i k j l q) (P.adopt q z.shared q)
      (Wired.moved (Function.update D i ((D i).adopt k z.shared q)) i k j l) := by
  refine ⟨?_, fun m hm a u cached => ?_, fun m hm => ?_, fun {q' c u} cell => ?_⟩
  · have written : Wired (fun _ => true) fresh { z.toYard with shared := P.adopt q z.shared q }
        (Function.update D i ((D i).adopt k z.shared q)) := by
      refine h.wired.rewrite rfl there (fun q' e c => ?_) (fun k' e c => ?_) fun c => ?_
      · rw [Table.get_adopt, if_neg e]
      · rw [Table.get_adopt, if_neg e]
      · rw [Table.get_adopt, Table.get_adopt, if_pos rfl, if_pos rfl]
    refine written.move rfl rfl there (fun c => ?_) fun e => other e.1
    rw [Function.update_of_ne (Ne.symm other), empty]
  · obtain ⟨hm, ne⟩ := left m hm
    have owned := h.own m hm a u cached
    refine owned_handOver there owned (fun e => ne e.1) fun vacant => ?_
    obtain ⟨_, filled⟩ := owned
    obtain ⟨rfl, rfl⟩ := h.apart vacant filled
    cases (h.blank dest vacant empty a.column).1.symm.trans cached
  · obtain ⟨hm, ne⟩ := left m hm
    obtain ⟨Q, coherent, agrees⟩ := h.stands m hm
    refine ⟨Q, coherent, fun q' owned c => ?_⟩
    obtain ⟨k', there'⟩ := owned
    rw [row_handOver] at there'
    rw [Table.get_adopt]
    split_ifs at there' with gone here
    · -- of a row that it did not own the cache of a store has nothing
      obtain rfl := Option.some.inj there'
      have uncached : (z.caches m).value? ⟨q, c⟩ = none :=
        CacheState.Within.value?_eq_none (h.own m hm) (h.not_owned ⟨k, there⟩ ne)
      rw [if_pos rfl]
      exact (coherent.get_of_absent uncached).symm
    · rw [if_neg fun e => ne ?_]
      · exact agrees q' ⟨k', there'⟩ c
      · subst e
        exact (h.apart there there').1.symm
  · obtain ⟨m, owned⟩ := h.covered cell
    by_cases handed : m = i ∧ q' = q
    · exact ⟨j, handed.2 ▸ owned_taken other⟩
    · refine ⟨m, owned_handOver there owned handed fun vacant => ?_⟩
      cases (h.blank dest vacant empty c).2.symm.trans cell

end Stowed

end Quay

end RowFiles
