/-
Links into a shared table.

A yard has a table of links for each of several stores and one table that all of them share; a store that is not linked has
a table of its own. `Wired` says which plain tables a yard stands for: the row of a key is the shared row that it links to.
No two keys share a row, across all stores, and no row of the shared table has lost its key.

The lemmas below `Wired` say what keeps it: a new link (`Wired.grow`), a cell that is put (`Wired.put`), a row that is
deleted with its link (`Wired.delete`). A link that is moved to another key moves the row (`Wired.move`); in between, two
keys share it, so this is one step.
-/
import Mathlib.Logic.Function.Basic
import RowFiles.Proofs.Store.Tables
import RowFiles.Store.Linked
import RowFiles.Store.Probe

namespace RowFiles

/-! ## Rows taken over -/

namespace Table

variable {κ : Type} [Ord κ] [Std.TransOrd κ]

/-- the table with its row `k` replaced by the row `l` of another -/
def adopt (t : Table κ) (k : Key) (u : Table κ) (l : Key) : Table κ :=
  ⟨(t.delete k).cells.insertMany ((u.row l).map fun p => ((⟨k, p.1⟩ : Address κ), p.2))⟩

theorem get_adopt [DecidableEq κ] [Std.LawfulEqOrd κ] (t u : Table κ) (k l k' : Key) (c : κ) :
    (t.adopt k u l).get k' c = if k = k' then u.get l c else t.get k' c := by
  have untouched (other : k = k' → u.get l c = none) : (t.adopt k u l).get k' c = (t.delete k).get k' c := by
    refine Std.ExtTreeMap.getElem?_insertMany_list_of_contains_eq_false (Bool.eq_false_iff.2 fun there => ?_)
    simp only [List.map_map, List.contains_iff_mem, List.mem_map, Function.comp_apply, Prod.exists] at there
    obtain ⟨_, v, found, e⟩ := there
    cases e
    rw [mem_row, other rfl] at found
    cases found
  by_cases same : k = k'
  · subst same
    rw [if_pos rfl]
    cases found : u.get l c with
    | some v =>
      have here : ((⟨k, c⟩ : Address κ), v) ∈ (u.row l).map fun p => ((⟨k, p.1⟩ : Address κ), p.2) :=
        List.mem_map.2 ⟨(c, v), mem_row.2 found, rfl⟩
      refine Std.ExtTreeMap.getElem?_insertMany_list_of_mem Std.ReflOrd.compare_self ?_ here
      rw [List.pairwise_map]
      refine (u.row_ascending l).imp fun {p q} less e => ?_
      rw [Address.compare_eq, Std.ReflOrd.compare_self, less] at e
      cases e
    | none =>
      rw [untouched fun _ => found, get_delete, if_pos rfl]
  · rw [if_neg same, untouched fun e => absurd e same, get_delete, if_neg same]

end Table

/-! ## Yards -/

/-- words of one letter are told apart by their lengths, so they can be drawn as keys -/
theorem letters_distinct {m n : Nat} (same : String.ofList (List.replicate m 'k') = String.ofList (List.replicate n 'k')) :
    m = n := by
  simpa using congrArg String.length same

/-- tables of links for several stores, the table that they share, and tables of their own for stores that are not linked -/
structure Yard where
  own : Nat → Table Column := fun _ => .empty
  links : Nat → Table Column := fun _ => .empty
  shared : Table Column := .empty
  /-- a probe on the shared table -/
  probe : ProbeState Unit := {}
  /-- how many keys have been drawn -/
  made : Nat := 0

namespace Yard

variable (y : Yard)

/-- the link of a key as it is kept -/
def text (i : Nat) (k : Key) : Option Bytes := (y.links i).get k LinkTable.linkColumn

/-- the shared row that a key links to -/
def row (i : Nat) (k : Key) : Option Key := (y.text i k).bind fun cell => (Utf8.decode cell).toOption

def link (i : Nat) (k q : Key) : Yard :=
  { y with links := Function.update y.links i ((y.links i).put k LinkTable.linkColumn (Utf8.encode q)) }

def unlink (i : Nat) (k : Key) : Yard :=
  { y with links := Function.update y.links i ((y.links i).delete k) }

theorem text_link (i j : Nat) (k l q : Key) :
    (y.link i k q).text j l = if i = j ∧ k = l then some (Utf8.encode q) else y.text j l := by
  by_cases here : i = j
  · subst here
    simp [text, link, Table.get_put]
  · simp [text, link, here, Ne.symm here]

theorem text_unlink (i j : Nat) (k l : Key) :
    (y.unlink i k).text j l = if i = j ∧ k = l then none else y.text j l := by
  by_cases here : i = j
  · subst here
    simp [text, unlink, Table.get_delete]
  · simp [text, unlink, here, Ne.symm here]

theorem row_link (i j : Nat) (k l q : Key) :
    (y.link i k q).row j l = if i = j ∧ k = l then some q else y.row j l := by
  rw [row, text_link]
  split_ifs
  · simp [Except.toOption]
  · rfl

theorem row_unlink (i j : Nat) (k l : Key) :
    (y.unlink i k).row j l = if i = j ∧ k = l then none else y.row j l := by
  rw [row, text_unlink]
  split_ifs <;> rfl

/-- every link is the text of a key -/
def Legible : Prop := ∀ i k, y.text i k = (y.row i k).map Utf8.encode

variable {y}

theorem Legible.link (h : y.Legible) (i : Nat) (k q : Key) : (y.link i k q).Legible := fun j l => by
  rw [text_link, row_link]
  split_ifs
  · rfl
  · exact h j l

theorem Legible.unlink (h : y.Legible) (i : Nat) (k : Key) : (y.unlink i k).Legible := fun j l => by
  rw [text_unlink, row_unlink]
  split_ifs
  · rfl
  · exact h j l

/-- a key that is linked to its row again is linked as before -/
theorem link_same (h : y.Legible) {i : Nat} {k q : Key} (there : y.row i k = some q) : y.link i k q = y := by
  have text : (y.links i).get k LinkTable.linkColumn = some (Utf8.encode q) := (h i k).trans (by rw [there]; rfl)
  have same : (y.links i).put k LinkTable.linkColumn (Utf8.encode q) = y.links i := Table.ext_get fun l c => by
    rw [Table.get_put]
    split_ifs with here
    · rw [← here.1, ← here.2, text]
    · rfl
  rw [link, same, Function.update_eq_self]

end Yard

/-! ## Links at work -/

namespace Yard

section

variable {σ : Type} (yard : σ → Yard) (set : Yard → σ → σ) (fresh : Nat → Nat → Key) (width i : Nat)

/-- the links of store `i`, in a yard that is part of a state -/
def linkTable : LinkTable (Run σ) where
  links := Table.rows (Run.part (fun s => (yard s).links i) fun t s =>
    set { yard s with links := Function.update (yard s).links i t } s) width
  freshKey w := fun s => (.ok (fresh w (yard s).made), set { yard s with made := (yard s).made + 1 } s)

variable {yard set fresh width i} {s : σ} {k q : Key}

theorem lookup_linkTable (legible : (yard s).Legible) (k : Key) :
    (linkTable yard set fresh width i).lookup k s = (.ok ((yard s).row i k), s) := by
  have found : (linkTable yard set fresh width i).links.get k LinkTable.linkColumn s = (.ok ((yard s).text i k), s) := rfl
  rw [LinkTable.lookup, Run.bind_of_ok found, legible i k]
  cases (yard s).row i k with
  | none => rfl
  | some q =>
    simp only [Option.map_some, Utf8.decode_encode]
    rfl

theorem unlink_linkTable :
    (linkTable yard set fresh width i).unlink k s = (.ok (), set ((yard s).unlink i k) s) :=
  congrFun (Table.rows_delete (Run.part (fun s => (yard s).links i) _) width k) s

/-- a key that is linked to a row is found there -/
theorem resolve_linked (legible : (yard s).Legible) (there : (yard s).row i k = some q) :
    (linkTable yard set fresh width i).resolve k s = (.ok q, s) := by
  rw [LinkTable.resolve, Run.bind_of_ok (lookup_linkTable legible k), there]
  rfl

/-- a key that has no row is linked to the next one drawn -/
theorem resolve_unlinked (get_set : ∀ y s, yard (set y s) = y) (set_set : ∀ y y' s, set y (set y' s) = set y s)
    (legible : (yard s).Legible) (unlinked : (yard s).row i k = none) :
    (linkTable yard set fresh width i).resolve k s = (.ok (fresh width (yard s).made),
      set { (yard s).link i k (fresh width (yard s).made) with made := (yard s).made + 1 } s) := by
  have drawn : (linkTable yard set fresh width i).freshKey (linkTable yard set fresh width i).links.width s =
      (.ok (fresh width (yard s).made), set { yard s with made := (yard s).made + 1 } s) := rfl
  rw [LinkTable.resolve, Run.bind_of_ok (lookup_linkTable legible k), unlinked]
  simp only
  rw [Run.bind_of_ok (lookup_linkTable legible k), unlinked]
  simp only
  rw [Run.bind_of_ok drawn]
  change (_, set _ (set _ s)) = _
  simp only [set_set, get_set]
  rfl

end

end Yard

/-! ## What a yard stands for -/

/-- a yard stands for a table for each store -/
structure Wired (linked : Nat → Bool) (fresh : Nat → Nat → Key) (y : Yard) (D : Nat → Table Column) : Prop where
  own : ∀ i, linked i = false → D i = y.own i
  cells : ∀ i, linked i = true → ∀ k c, (D i).get k c = (y.row i k).bind (y.shared.get · c)
  legible : y.Legible
  /-- no two keys share a row -/
  apart : ∀ {i j k l q}, y.row i k = some q → y.row j l = some q → i = j ∧ k = l
  drawn : ∀ {i k q}, y.row i k = some q → ∃ w m, m < y.made ∧ q = fresh w m
  /-- every row has a key -/
  covered : ∀ {q c v}, y.shared.get q c = some v → ∃ i k, y.row i k = some q
  quiet : y.probe.rules = []

namespace Wired

variable {linked : Nat → Bool} {fresh : Nat → Nat → Key} {y : Yard} {D : Nat → Table Column} {i j : Nat} {k l q : Key}

theorem empty (linked : Nat → Bool) (fresh : Nat → Nat → Key) : Wired linked fresh {} fun _ => .empty where
  own _ _ := rfl
  cells _ _ k c := by simp [Yard.row, Yard.text]
  legible _ _ := by simp [Yard.row, Yard.text]
  apart h _ := by simp [Yard.row, Yard.text] at h
  drawn h := by simp [Yard.row, Yard.text] at h
  covered h := by simp at h
  quiet := rfl

/-- the cells of a key are those of the row that it links to -/
theorem get_row (h : Wired linked fresh y D) (is_linked : linked i = true) (there : y.row i k = some q) (c : Column) :
    (D i).get k c = y.shared.get q c := by
  rw [h.cells i is_linked, there]
  rfl

/-- calls are counted -/
theorem count (h : Wired linked fresh y D) {p : ProbeState Unit} (quiet : p.rules = []) :
    Wired linked fresh { y with probe := p } D :=
  { h with quiet := quiet }

/-- the table of a store that is not linked is replaced -/
theorem replace (h : Wired linked fresh y D) (plain : linked i = false) (t : Table Column) :
    Wired linked fresh { y with own := Function.update y.own i t } (Function.update D i t) where
  own j hj := by
    change _ = Function.update y.own i t j
    rw [Function.update_apply, Function.update_apply, h.own j hj]
  cells j hj k c := by
    have other : j ≠ i := fun e => by rw [e, plain] at hj; cases hj
    rw [Function.update_of_ne other]
    exact h.cells j hj k c
  legible := h.legible
  apart := h.apart
  drawn := h.drawn
  covered := h.covered
  quiet := h.quiet

/-- nothing links to the row that is drawn next -/
theorem row_ne_fresh (h : Wired linked fresh y D) (distinct : ∀ {v w m n}, fresh v m = fresh w n → m = n) (w : Nat) :
    y.row j l ≠ some (fresh w y.made) := fun e => by
  obtain ⟨v, m, before, same⟩ := h.drawn e
  exact absurd (distinct same) (Nat.ne_of_gt before)

/-- the row that is drawn next is empty -/
theorem get_fresh (h : Wired linked fresh y D) (distinct : ∀ {v w m n}, fresh v m = fresh w n → m = n) (w : Nat)
    (c : Column) : y.shared.get (fresh w y.made) c = none := by
  cases found : y.shared.get (fresh w y.made) c with
  | none => rfl
  | some v =>
    obtain ⟨_, _, e⟩ := h.covered found
    exact absurd e (h.row_ne_fresh distinct w)

/-- a key that has no row is linked to a new one, which is empty -/
theorem grow (h : Wired linked fresh y D) (distinct : ∀ {v w m n}, fresh v m = fresh w n → m = n) (w : Nat)
    (unlinked : y.row i k = none) : Wired linked fresh { y.link i k (fresh w y.made) with made := y.made + 1 } D := by
  have new {j l} : y.row j l ≠ some (fresh w y.made) := h.row_ne_fresh distinct w
  have row (j : Nat) (l : Key) : ({ y.link i k (fresh w y.made) with made := y.made + 1 } : Yard).row j l =
      if i = j ∧ k = l then some (fresh w y.made) else y.row j l := y.row_link i j k l _
  refine ⟨h.own, fun j hj l c => ?_, h.legible.link i k _, fun {j j' l l' q} e e' => ?_, fun {j l q} e => ?_,
    fun {q c v} e => ?_, h.quiet⟩
  · rw [row, h.cells j hj]
    split_ifs with here
    · obtain ⟨rfl, rfl⟩ := here
      rw [unlinked]
      exact (h.get_fresh distinct w c).symm
    · rfl
  · rw [row] at e e'
    split_ifs at e e' with here there there
    · exact ⟨here.1.symm.trans there.1, here.2.symm.trans there.2⟩
    · exact absurd (e'.trans e.symm) new
    · exact absurd (e.trans e'.symm) new
    · exact h.apart e e'
  · rw [row] at e
    split_ifs at e
    · exact ⟨w, y.made, Nat.lt_succ_self _, (Option.some.inj e).symm⟩
    · obtain ⟨v, m, before, same⟩ := h.drawn e
      exact ⟨v, m, Nat.lt_succ_of_lt before, same⟩
  · obtain ⟨j, l, there⟩ := h.covered e
    refine ⟨j, l, ?_⟩
    rw [row, if_neg fun here => ?_, there]
    obtain ⟨rfl, rfl⟩ := here
    rw [unlinked] at there
    cases there

/-- the row of a key is changed, and no other -/
theorem rewrite (h : Wired linked fresh y D) (is_linked : linked i = true) (there : y.row i k = some q) {t u : Table Column}
    (others : ∀ q', q ≠ q' → ∀ c, u.get q' c = y.shared.get q' c) (rest : ∀ l, k ≠ l → ∀ c, t.get l c = (D i).get l c)
    (same : ∀ c, t.get k c = u.get q c) : Wired linked fresh { y with shared := u } (Function.update D i t) where
  own j hj := by
    have other : j ≠ i := fun e => by rw [e, is_linked] at hj; cases hj
    rw [Function.update_of_ne other]
    exact h.own j hj
  cells j hj l c := by
    change _ = (y.row j l).bind fun q' => u.get q' c
    by_cases here : i = j ∧ k = l
    · obtain ⟨rfl, rfl⟩ := here
      rw [Function.update_self, same, there]
      rfl
    · have before : Function.update D i t j = D j ∨ i = j ∧ k ≠ l := by
        by_cases e : j = i
        · exact .inr ⟨e.symm, fun e' => here ⟨e.symm, e'⟩⟩
        · exact .inl (Function.update_of_ne e ..)
      have kept : (Function.update D i t j).get l c = (D j).get l c := by
        rcases before with e | ⟨rfl, e⟩
        · rw [e]
        · rw [Function.update_self, rest l e]
      rw [kept, h.cells j hj]
      cases found : y.row j l with
      | none => rfl
      | some q' => exact (others q' (fun e => here (h.apart there (e ▸ found))) c).symm
  legible := h.legible
  apart := h.apart
  drawn := h.drawn
  covered {q' c v} e := by
    change u.get q' c = some v at e
    by_cases here : q = q'
    · exact ⟨i, k, here ▸ there⟩
    · exact h.covered (others q' here c ▸ e)
  quiet := h.quiet

/-- a key whose row is empty loses its link -/
theorem unlink (h : Wired linked fresh y D) (empty : ∀ c, (D i).get k c = none) (is_linked : linked i = true) :
    Wired linked fresh (y.unlink i k) D where
  own := h.own
  cells j hj l c := by
    rw [y.row_unlink]
    split_ifs with here
    · obtain ⟨rfl, rfl⟩ := here
      exact empty c
    · exact h.cells j hj l c
  legible := h.legible.unlink i k
  apart e e' := by
    rw [y.row_unlink] at e e'
    split_ifs at e e'
    exact h.apart e e'
  drawn e := by
    rw [y.row_unlink] at e
    split_ifs at e
    exact h.drawn e
  covered {q c v} e := by
    obtain ⟨j, l, there⟩ := h.covered e
    refine ⟨j, l, ?_⟩
    rw [y.row_unlink, if_neg fun here => ?_, there]
    obtain ⟨rfl, rfl⟩ := here
    cases (h.get_row is_linked there c).symm.trans (empty c) ▸ e
  quiet := h.quiet

theorem put (h : Wired linked fresh y D) (is_linked : linked i = true) (there : y.row i k = some q) (c : Column) (v : Bytes) :
    Wired linked fresh { y with shared := y.shared.put q c v } (Function.update D i ((D i).put k c v)) := by
  refine h.rewrite is_linked there (fun q' e c' => ?_) (fun l e c' => ?_) fun c' => ?_
  · rw [Table.get_put, if_neg fun here => e here.1]
  · rw [Table.get_put, if_neg fun here => e here.1]
  · rw [Table.get_put, Table.get_put, h.get_row is_linked there]
    simp

theorem delete (h : Wired linked fresh y D) (is_linked : linked i = true) (there : y.row i k = some q) :
    Wired linked fresh ({ y with shared := y.shared.delete q }.unlink i k) (Function.update D i ((D i).delete k)) := by
  refine (h.rewrite is_linked there (fun q' e c => ?_) (fun l e c => ?_) fun c => ?_).unlink (fun c => ?_) is_linked
  · rw [Table.get_delete, if_neg e]
  · rw [Table.get_delete, if_neg e]
  · rw [Table.get_delete, Table.get_delete, if_pos rfl, if_pos rfl]
  · rw [Function.update_self, Table.get_delete, if_pos rfl]

/-- tables of which the row `k` of one has become the row `l` of another -/
def moved (D : Nat → Table Column) (i : Nat) (k : Key) (j : Nat) (l : Key) : Nat → Table Column :=
  let E := Function.update D j ((D j).adopt l (D i) k)
  Function.update E i ((E i).delete k)

theorem get_moved (m : Nat) (k' : Key) (c : Column) : (moved D i k j l m).get k' c =
    if i = m ∧ k = k' then none else if j = m ∧ l = k' then (D i).get k c else (D m).get k' c := by
  have adopted (m : Nat) : (Function.update D j ((D j).adopt l (D i) k) m).get k' c =
      if j = m ∧ l = k' then (D i).get k c else (D m).get k' c := by
    by_cases here : m = j
    · subst here
      simp [Table.get_adopt]
    · simp [here, Ne.symm here]
  by_cases here : m = i
  · subst here
    by_cases same : k = k'
    · simp [moved, Table.get_delete, same]
    · simp only [moved, Function.update_self, Table.get_delete, same, if_false, and_false, adopted]
  · simp only [moved, Function.update_of_ne here, adopted, Ne.symm here, false_and, if_false]

/-- **A row is moved** by moving its link, onto a key that has no cells. -/
theorem move (h : Wired linked fresh y D) (from_linked : linked i = true) (to_linked : linked j = true)
    (there : y.row i k = some q) (empty : ∀ c, (D j).get l c = none) (other : ¬ (i = j ∧ k = l)) :
    Wired linked fresh ((y.link j l q).unlink i k) (moved D i k j l) := by
  have row (m : Nat) (k' : Key) : ((y.link j l q).unlink i k).row m k' =
      if i = m ∧ k = k' then none else if j = m ∧ l = k' then some q else y.row m k' := by
    rw [Yard.row_unlink, Yard.row_link]
  refine ⟨fun m hm => ?_, fun m hm k' c => ?_, (h.legible.link j l q).unlink i k, fun {m n k' l' q'} e e' => ?_,
    fun {m k' q'} e => ?_, fun {q' c v} e => ?_, h.quiet⟩
  · have ne (n : Nat) (hn : linked n = true) : m ≠ n := fun e => by rw [e, hn] at hm; cases hm
    rw [moved, Function.update_of_ne (ne i from_linked), Function.update_of_ne (ne j to_linked)]
    exact h.own m hm
  · rw [get_moved, row]
    split_ifs
    · rfl
    · exact h.get_row from_linked there c
    · exact h.cells m hm k' c
  · rw [row] at e e'
    split_ifs at e e' with gone here gone' there' gone' there'
    · exact ⟨here.1.symm.trans there'.1, here.2.symm.trans there'.2⟩
    · exact absurd (h.apart there (e'.trans e.symm)) gone'
    · exact absurd (h.apart there (e.trans e'.symm)) gone
    · exact h.apart e e'
  · rw [row] at e
    split_ifs at e
    · exact h.drawn (there.trans e)
    · exact h.drawn e
  · obtain ⟨m, k', held⟩ := h.covered e
    by_cases gone : i = m ∧ k = k'
    · obtain ⟨rfl, rfl⟩ := gone
      refine ⟨j, l, ?_⟩
      rw [row, if_neg other, if_pos ⟨rfl, rfl⟩, ← there, held]
    · refine ⟨m, k', ?_⟩
      rw [row, if_neg gone, if_neg fun here => ?_, held]
      obtain ⟨rfl, rfl⟩ := here
      cases (h.get_row to_linked held c).symm.trans (empty c) ▸ e

end Wired

end RowFiles
