/-
Where contenders meet: a lock's row in a store they share, the catalogs of their processes over a second store, the time,
and who thinks he owns the lock.

The two stores may be of any kind that serves a table (`Contest.Reliable`); of the first it is enough that the lock's own
row does (`Contest.Attends`). An arena over stores shows the arena over the tables that they serve (`Arena.Shows`), and
each call that a lock makes is told by what it does there. That is all the theorems about locks rest on.
-/
import Mathlib.Logic.Function.Basic
import Mathlib.Tactic.SplitIfs
import RowFiles.Lock
import RowFiles.Proofs.Files.Catalogs

namespace RowFiles

open Run

/-! ## Cells of a lock row -/

@[simp] theorem LockState.length_cell (s : LockState) (time : UInt64) : (s.cell time).length = 9 := by
  simp [cell]

namespace Bid

@[simp] theorem ofCell?_openCell (g : UInt64) : ofCell? (openCell g) = some ⟨g, false⟩ := by
  simp [ofCell?, openCell]

@[simp] theorem ofCell?_ownedCell (g time : UInt64) : ofCell? (ownedCell g time) = some ⟨g, true⟩ := by
  simp [ofCell?, ownedCell, Bytes.toUInt64_ofUInt64_append]

/-- an owned bid is a cell of sixteen bytes that begin with the signature -/
theorem owned_of_cell {u : Bytes} {x : UInt64} (h : ofCell? u = some ⟨x, true⟩) :
    u.length = 16 ∧ Bytes.toUInt64 u = x := by
  rw [ofCell?] at h
  split_ifs at h with short long
  · cases h
  · cases h
    exact ⟨long, rfl⟩

/-- a state cell is no bid -/
theorem ofCell?_of_length {u : Bytes} (h : u.length = 9) : ofCell? u = none := by
  simp [ofCell?, h]

/-! ### The largest bid -/

theorem toNat_max (a b : UInt64) : (max a b).toNat = max a.toNat b.toNat := by
  have larger : max a b = if a ≤ b then b else a := rfl
  rw [larger]
  split_ifs with h
  · rw [UInt64.le_iff_toNat_le] at h
    omega
  · rw [UInt64.le_iff_toNat_le] at h
    omega

theorem highest_mem {bs : List Bid} {x : UInt64} (h : highest bs = some x) : ∃ b ∈ bs, b.signature = x := by
  induction bs generalizing x with
  | nil => cases h
  | cons b bs ih =>
    rw [highest] at h
    cases e : highest bs with
    | none =>
      simp only [e] at h
      exact ⟨b, List.mem_cons_self, Option.some.inj h⟩
    | some y =>
      simp only [e] at h
      obtain ⟨c, hc, rfl⟩ := ih e
      have larger : max b.signature c.signature = if b.signature ≤ c.signature then c.signature else b.signature := rfl
      rw [larger] at h
      split_ifs at h
      · exact ⟨c, List.mem_cons_of_mem b hc, Option.some.inj h⟩
      · exact ⟨b, List.mem_cons_self, Option.some.inj h⟩

theorem le_highest {bs : List Bid} {b : Bid} (hb : b ∈ bs) :
    ∃ x, highest bs = some x ∧ b.signature.toNat ≤ x.toNat := by
  induction bs with
  | nil => cases hb
  | cons c bs ih =>
    rcases List.mem_cons.1 hb with rfl | hb
    · rw [highest]
      cases highest bs with
      | none => exact ⟨_, rfl, Nat.le_refl _⟩
      | some y =>
        refine ⟨_, rfl, ?_⟩
        rw [toNat_max]
        exact Nat.le_max_left _ _
    · obtain ⟨x, hx, le⟩ := ih hb
      rw [highest, hx]
      refine ⟨_, rfl, ?_⟩
      rw [toNat_max]
      exact Nat.le_trans le (Nat.le_max_right _ _)

theorem highest_eq {bs : List Bid} {b : Bid} (hb : b ∈ bs) (largest : ∀ c ∈ bs, c.signature.toNat ≤ b.signature.toNat) :
    highest bs = some b.signature := by
  obtain ⟨x, hx, le⟩ := le_highest hb
  obtain ⟨c, hc, rfl⟩ := highest_mem hx
  rw [hx, UInt64.toNat_inj.1 (Nat.le_antisymm (largest c hc) le)]

end Bid

/-! ## Arenas -/

/-- a contender: his signature, when he takes a round for abandoned, and the process whose catalog he uses -/
structure Contender where
  signature : UInt64
  expiry : Option Duration := none
  process : Nat := 0

/-- what contenders share; of each it is known whether he thinks he owns the lock -/
structure Arena (τ μ ι : Type) where
  data : τ
  names : μ
  catalogs : Nat → CatalogState := fun _ => {}
  clock : UInt64 := 0
  owned : ι → Bool := fun _ => false

/-- a lock in a store without buffers, the store beneath the catalogs, and those who try to take the lock -/
structure Contest (τ μ ι : Type) where
  name : Key
  data : Rows (Run τ)
  names : Rows (Run μ)
  contender : ι → Contender

variable {τ μ ι : Type}

namespace Contest

variable (g : Contest τ μ ι)

def signature (i : ι) : UInt64 := Lock.effective (g.contender i).signature

theorem signature_ne_zero (i : ι) : g.signature i ≠ 0 := by
  have larger : g.signature i = if (g.contender i).signature ≤ 1 then 1 else (g.contender i).signature := rfl
  rw [larger]
  split_ifs with h
  · decide
  · intro zero
    rw [zero] at h
    exact h (by decide)

def catalog (process : Nat) : Catalog (Run (Arena τ μ ι)) where
  rows := g.names.within Arena.names fun m s => { s with names := m }
  state := Run.part (·.catalogs process) fun c s => { s with catalogs := Function.update s.catalogs process c }
  order := pure

/-- a contender's handle -/
def lock [DecidableEq ι] (i : ι) : Lock (Run (Arena τ μ ι)) :=
  .ofStore { g.data.within Arena.data fun t s => { s with data := t } with } (g.catalog (g.contender i).process)
    (g.contender i).expiry (Run.part Arena.clock fun time s => { s with clock := time }).read g.name
    (g.contender i).signature (Run.part (·.owned i) fun yes s => { s with owned := Function.update s.owned i yes })

/-- the stores serve tables, and no call fails -/
structure Reliable (D : τ → Table Column → Prop) (N : μ → Table Column → Prop) : Prop where
  data : g.data.Serves D List.Perm never
  dataTrims : g.data.Trims D never
  names : g.names.Serves N List.Perm never
  namesTrims : g.names.Trims N never

/-- tables by themselves are reliable stores -/
theorem reliable_of_tables (name : Key) (width width' : Nat) (contender : ι → Contender) :
    (Contest.mk name (Table.plainRows width) (Table.plainRows width') contender).Reliable Eq Eq :=
  ⟨Table.plainRows_serve.scan_mono fun _ _ h => h ▸ .refl _, Table.plainRows_trim,
    Table.plainRows_serve.scan_mono fun _ _ h => h ▸ .refl _, Table.plainRows_trim⟩

/-- as much as locks rest on: the calls about the lock's row answer as those of a table, and a scan finds what the row holds -/
structure Attends (D : τ → Table Column → Prop) (N : μ → Table Column → Prop) : Prop where
  dataPut : ∀ c u t, Yields D (g.data.put g.name c u) t fun _ w => w = t.put g.name c u
  dataGet : ∀ c t, Yields D (g.data.get g.name c) t fun a w => a = t.get g.name c ∧ w = t
  dataTrim : ∀ c t, Yields D (g.data.deleteColumn g.name c) t fun _ w => w = t.deleteColumn g.name c
  dataScan : ∀ t, Yields D (g.data.values g.name) t fun us w =>
    (∀ u, u ∈ us ↔ ∃ c, t.get g.name c = some u) ∧ w = t
  names : g.names.Serves N List.Perm never
  namesTrims : g.names.Trims N never

variable {g} in
theorem Reliable.attends {D : τ → Table Column → Prop} {N : μ → Table Column → Prop} (rel : g.Reliable D N) :
    g.Attends D N where
  dataPut c u t := (rel.data.put g.name c u t).yields id
  dataGet c t := (rel.data.get g.name c t).yields id
  dataTrim c t := (rel.dataTrims g.name c t).yields id
  dataScan t := by
    refine ((rel.data.values g.name t).yields id).mono ?_
    intro us _ h
    obtain ⟨perm, rfl⟩ := h
    exact ⟨fun u => perm.mem_iff.trans Table.mem_values, rfl⟩
  names := rel.names
  namesTrims := rel.namesTrims

end Contest

/-! ## What an arena shows -/

/-- the arena over tables -/
abbrev Arena.View (ι : Type) := Arena (Table Column) (Table Column) ι

/-- the stores of an arena serve the tables of the view, and all else is the same -/
structure Arena.Shows (D : τ → Table Column → Prop) (N : μ → Table Column → Prop) (s : Arena τ μ ι) (v : Arena.View ι) :
    Prop where
  data : D s.data v.data
  names : N s.names v.names
  catalogs : s.catalogs = v.catalogs
  clock : s.clock = v.clock
  owned : s.owned = v.owned

namespace Contest

variable {g : Contest τ μ ι} {D : τ → Table Column → Prop} {N : μ → Table Column → Prop} {α : Type}
  {P : α → Table Column → Prop}

/-- a call of the shared store changes nothing else -/
theorem data_call {v : Arena.View ι} {x : Run τ α} (h : Yields D x v.data P) :
    Yields (Arena.Shows (ι := ι) D N) (within Arena.data (fun t s => { s with data := t }) x) v
      fun a w => ∃ t, P a t ∧ w = { v with data := t } := by
  refine Ends.mono (Ends.within (fun t => { v with data := t }) h (fun s hs => hs.data)
    fun s t w hs ht => ⟨ht, hs.names, hs.catalogs, hs.clock, hs.owned⟩) ?_
  intro _ _ hw
  obtain ⟨t, ⟨a, rfl, ha⟩, rfl⟩ := hw
  exact ⟨a, rfl, t, ha, rfl⟩

/-- a call of the store beneath the catalogs changes nothing else -/
theorem names_call {v : Arena.View ι} {x : Run μ α} (h : Yields N x v.names P) :
    Yields (Arena.Shows (ι := ι) D N) (within Arena.names (fun m s => { s with names := m }) x) v
      fun a w => ∃ m, P a m ∧ w = { v with names := m } := by
  refine Ends.mono (Ends.within (fun m => { v with names := m }) h (fun s hs => hs.names)
    fun s t w hs ht => ⟨hs.data, ht, hs.catalogs, hs.clock, hs.owned⟩) ?_
  intro _ _ hw
  obtain ⟨m, ⟨a, rfl, ha⟩, rfl⟩ := hw
  exact ⟨a, rfl, m, ha, rfl⟩

/-! ### The catalog of a process -/

section Catalog

variable (p : Nat) (v : Arena.View ι)

theorem catalogRead : Yields (Arena.Shows D N) (g.catalog (ι := ι) p).state.read v
    fun c w => c = v.catalogs p ∧ w = v :=
  fun s hs => ⟨v, hs, s.catalogs p, rfl, congrFun hs.catalogs p, rfl⟩

theorem catalogWrite (c : CatalogState) : Yields (Arena.Shows D N) ((g.catalog (ι := ι) p).state.write c) v
    fun _ w => w = { v with catalogs := Function.update v.catalogs p c } := by
  intro s hs
  have same : Function.update s.catalogs p c = Function.update v.catalogs p c := by rw [hs.catalogs]
  refine ⟨{ v with catalogs := Function.update v.catalogs p c }, ?_, (), rfl, rfl⟩
  exact ⟨hs.data, hs.names, same, hs.clock, hs.owned⟩

theorem catalogModify (f : CatalogState → CatalogState) :
    Yields (Arena.Shows D N) ((g.catalog (ι := ι) p).state.modify f) v
      fun _ w => w = { v with catalogs := Function.update v.catalogs p (f (v.catalogs p)) } := by
  refine (catalogRead p v).next ?_
  exact catalogWrite p v _

variable (rel : g.Attends D N)

include rel

theorem Attends.namesPut (k : Key) (c : Column) (u : Bytes) :
    Yields (Arena.Shows D N) ((g.catalog (ι := ι) p).rows.put k c u) v
      fun _ w => w = { v with names := v.names.put k c u } := by
  refine (names_call ((rel.names.put k c u v.names).yields id)).mono ?_
  intro _ _ h
  obtain ⟨_, rfl, rfl⟩ := h
  rfl

/-- a committed length is in memory and in the rows -/
theorem Attends.setLength (k : Key) (n : UInt64) :
    Yields (Arena.Shows D N) ((g.catalog (ι := ι) p).setLength k n true) v fun _ w => w = { v with
      names := Catalog.persisted v.names k n
      catalogs := Function.update v.catalogs p (((v.catalogs p).setLength k n).clean k) } := by
  have persisted (v : Arena.View ι) : Yields (Arena.Shows D N) ((g.catalog (ι := ι) p).persist k n) v fun _ w =>
      w = { v with names := Catalog.persisted v.names k n } := by
    refine (rel.namesPut p v _ _ _).step ?_
    exact rel.namesPut p _ _ _ _
  refine (catalogModify p v _).step ?_
  refine (persisted _).step ?_
  refine (catalogModify p _ _).mono fun _ w hw => ?_
  rw [hw]
  simp only [Function.update_self, Function.update_idem]

/-- forgetting a file leaves the lock's row and its owners alone -/
theorem Attends.forget (k : Key) :
    Yields (Arena.Shows D N) ((g.catalog (ι := ι) p).delete k) v fun _ w => w.data = v.data ∧ w.owned = v.owned := by
  refine (catalogModify p v _).step ?_
  refine (names_call ((rel.names.delete _ _).yields id)).bind ?_
  intro _ _ h
  obtain ⟨_, rfl, rfl⟩ := h
  refine (names_call ((rel.namesTrims _ _ _).yields id)).mono ?_
  intro _ _ h
  obtain ⟨_, rfl, rfl⟩ := h
  exact ⟨rfl, rfl⟩

end Catalog

/-! ### What a handle asks for -/

section Lock

variable [DecidableEq ι] (i : ι) (v : Arena.View ι)

theorem now : Yields (Arena.Shows D N) (g.lock i).now v fun time w => time = v.clock ∧ w = v :=
  fun s hs => ⟨v, hs, s.clock, rfl, hs.clock, rfl⟩

theorem owned : Yields (Arena.Shows D N) (g.lock i).owned.read v fun yes w => yes = v.owned i ∧ w = v :=
  fun s hs => ⟨v, hs, s.owned i, rfl, congrFun hs.owned i, rfl⟩

theorem setOwned (yes : Bool) : Yields (Arena.Shows D N) ((g.lock i).owned.write yes) v
    fun _ w => w = { v with owned := Function.update v.owned i yes } := by
  intro s hs
  have same : Function.update s.owned i yes = Function.update v.owned i yes := by rw [hs.owned]
  refine ⟨{ v with owned := Function.update v.owned i yes }, ?_, (), rfl, rfl⟩
  exact ⟨hs.data, hs.names, hs.catalogs, hs.clock, same⟩

variable (rel : g.Attends D N)

include rel

namespace Attends

theorem get (c : Column) : Yields (Arena.Shows D N) ((g.lock i).rows.get g.name c) v
    fun a w => a = v.data.get g.name c ∧ w = v := by
  refine (data_call (rel.dataGet c v.data)).mono ?_
  intro _ _ h
  obtain ⟨_, ⟨rfl, rfl⟩, rfl⟩ := h
  exact ⟨rfl, rfl⟩

theorem put (c : Column) (u : Bytes) : Yields (Arena.Shows D N) ((g.lock i).rows.put g.name c u) v
    fun _ w => w = { v with data := v.data.put g.name c u } := by
  refine (data_call (rel.dataPut c u v.data)).mono ?_
  intro _ _ h
  obtain ⟨_, rfl, rfl⟩ := h
  rfl

theorem deleteColumn (c : Column) : Yields (Arena.Shows D N) ((g.lock i).rows.deleteColumn g.name c) v
    fun _ w => w = { v with data := v.data.deleteColumn g.name c } := by
  refine (data_call (rel.dataTrim c v.data)).mono ?_
  intro _ _ h
  obtain ⟨_, rfl, rfl⟩ := h
  rfl

/-- the bids among the values are those of the row's cells -/
theorem values : Yields (Arena.Shows D N) ((g.lock i).rows.values g.name) v
    fun us w =>
      (∀ b, b ∈ us.filterMap Bid.ofCell? ↔ ∃ c u, v.data.get g.name c = some u ∧ Bid.ofCell? u = some b) ∧ w = v := by
  refine (data_call (rel.dataScan v.data)).mono ?_
  intro us _ h
  obtain ⟨_, ⟨found, rfl⟩, rfl⟩ := h
  refine ⟨fun b => ?_, rfl⟩
  rw [List.mem_filterMap]
  constructor
  · intro h
    obtain ⟨u, hu, hb⟩ := h
    obtain ⟨c, hc⟩ := (found u).1 hu
    exact ⟨c, u, hc, hb⟩
  · intro h
    obtain ⟨c, u, hc, hb⟩ := h
    exact ⟨u, (found u).2 ⟨c, hc⟩, hb⟩

theorem bids : Yields (Arena.Shows D N) (g.lock i).bids v
    fun bs w => (∀ b, b ∈ bs ↔ ∃ c u, v.data.get g.name c = some u ∧ Bid.ofCell? u = some b) ∧ w = v :=
  Yields.map (rel.values i v)

/-- the state is written with the present time -/
theorem writeState (st : LockState) : Yields (Arena.Shows D N) ((g.lock i).writeState st) v
    fun _ w => w = { v with data := v.data.put g.name Lock.stateColumn (st.cell v.clock) } := by
  refine (now i v).next ?_
  exact rel.put i v _ _

end Attends

end Lock

end Contest

end RowFiles
