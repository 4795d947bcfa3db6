/-
One round for a lock, with every call of every contender a turn of its own.

All contenders find the lock free, all of them bid, and once all bids are in, all of them resolve. `contended_round`: in
whatever order the calls within each phase come, and whatever time they are made at, the contender with the largest
signature wins, every other one loses, and the row is left with a held state and the winner's bid.

While bids are resolved, every contender finds the winner's bid, open or owned, so no other can win (`Deciding`). A loser
only takes back his own bid and may write that the lock is held (`Promise`); that is all the winner has to bear (`Bears`).
-/
import Mathlib.Data.Fintype.Lattice
import RowFiles.Proofs.Files.Catalogs
import RowFiles.Proofs.Interleaving
import RowFiles.Proofs.Lock.Arena

namespace RowFiles

open Run Steps

/-! ## Locks that stop at every call -/

variable {m n : Type → Type} [MonadLiftT m n]

def Part.lift {σ : Type} (p : Part m σ) : Part n σ := ⟨liftM p.read, fun x => liftM (p.write x)⟩

def Catalog.lift (c : Catalog m) : Catalog n := ⟨c.rows.lift, c.state.lift, fun keys => liftM (c.order keys)⟩

def Lock.lift (l : Lock m) : Lock n :=
  ⟨l.name, l.rows.lift, l.catalog.lift, l.expiry, liftM l.now, l.signature, l.owned.lift⟩

namespace Contest

variable {τ μ ι : Type} [DecidableEq ι] {g : Contest τ μ ι} {D : τ → Table Column → Prop} {N : μ → Table Column → Prop}

/-- a contender's handle, stopping at every call -/
def stepwise (g : Contest τ μ ι) (i : ι) : Lock (Steps (Arena τ μ ι)) := (g.lock i).lift

/-- all contenders in the same phase -/
def phase {α : Type} (g : Contest τ μ ι) (program : Lock (Steps (Arena τ μ ι)) → Steps (Arena τ μ ι) α) (s : Arena τ μ ι) :
    Pool (Arena τ μ ι) ι α := ⟨fun i => program (g.stepwise i), s⟩

omit [DecidableEq ι] in
/-- time passes -/
def tick (time : UInt64) (s : Arena τ μ ι) : Arena τ μ ι := { s with clock := time }

/-! ## Asking -/

/-- the row is empty, and nobody owns the lock -/
structure Free (g : Contest τ μ ι) (v : Arena.View ι) : Prop where
  cells : ∀ c, v.data.get g.name c = none
  owned : ∀ i, v.owned i = false

theorem canBid_safe (rel : g.Attends D N) (i : ι) (v : Arena.View ι) :
    (g.stepwise i).canBid.Safe (fun s v => Arena.Shows D N s v ∧ g.Free v) (fun _ _ => True) (fun _ _ => True)
      (fun o _ => o = .ok true) v := by
  refine safe_call fun v' _ => (rel.get i v' Lock.stateColumn).keep_next ?_
  intro inv
  refine ⟨inv, trivial, ?_⟩
  rw [inv.cells]
  exact safe_pure fun _ _ => rfl

/-! ## Bidding -/

/-- the row holds a state and bids of contenders, none of whom owns the lock -/
structure Bidding (g : Contest τ μ ι) (v : Arena.View ι) : Prop where
  cells : ∀ c u, v.data.get g.name c = some u →
    (c = Lock.stateColumn ∧ u.length = 9) ∨ ∃ i, c = g.signature i ∧ u = Bid.openCell (g.signature i)
  owned : ∀ i, v.owned i = false

/-- a bidder touches the state and his own column only -/
def Own (g : Contest τ μ ι) (i : ι) (v w : Arena.View ι) : Prop :=
  ∀ j, j ≠ i → w.data.get g.name (g.signature j) = v.data.get g.name (g.signature j)

def Untouched (g : Contest τ μ ι) (i : ι) (v w : Arena.View ι) : Prop :=
  w.data.get g.name (g.signature i) = v.data.get g.name (g.signature i)

theorem register_safe (distinct : Function.Injective g.signature) (rel : g.Attends D N) (i : ι) (v : Arena.View ι) :
    (g.stepwise i).register.Safe (fun s v => Arena.Shows D N s v ∧ g.Bidding v) (g.Untouched i) (g.Own i)
      (fun o w => o = .ok () ∧ w.data.get g.name (g.signature i) = some (Bid.openCell (g.signature i))) v := by
  simp only [Lock.register, Lock.writeState, bind_assoc]
  refine safe_call fun v _ => (now i v).keep ?_
  intro inv time _ h
  obtain ⟨_, rfl⟩ := h
  refine ⟨inv, fun _ _ => rfl, safe_call fun v _ => (rel.put i v _ _).keep_step ?_⟩
  intro inv
  refine ⟨⟨fun c u hu => ?_, inv.owned⟩, fun j _ => ?_, safe_lift fun v _ => (rel.put i v _ _).keep ?_⟩
  · rw [Table.get_put] at hu
    split_ifs at hu with e
    · cases hu
      exact .inl ⟨e.2.symm, LockState.length_cell _ _⟩
    · exact inv.cells c u hu
  · rw [Table.get_put, if_neg fun e => g.signature_ne_zero j e.2.symm]
  intro inv _ _ h
  subst h
  refine ⟨⟨fun c u hu => ?_, inv.owned⟩, fun j hj => ?_, fun w hw => ⟨rfl, ?_⟩⟩
  · rw [Table.get_put] at hu
    split_ifs at hu with e
    · cases hu
      exact .inr ⟨i, e.2.symm, rfl⟩
    · exact inv.cells c u hu
  · rw [Table.get_put, if_neg fun e => hj (distinct e.2.symm)]
  · rw [hw, Table.get_put]
    exact if_pos ⟨rfl, rfl⟩

/-! ## Resolving -/

/-- the row holds a state and bids of contenders, of whom only `k` may own the lock; his bid is there -/
structure Deciding (g : Contest τ μ ι) (k : ι) (v : Arena.View ι) : Prop where
  cells : ∀ c u, v.data.get g.name c = some u → (c = Lock.stateColumn ∧ u.length = 9) ∨
    ∃ i, c = g.signature i ∧ (u = Bid.openCell (g.signature i) ∨ i = k ∧ ∃ time, u = Bid.ownedCell (g.signature k) time)
  bid : ∃ u, v.data.get g.name (g.signature k) = some u ∧ ∃ yes, Bid.ofCell? u = some ⟨g.signature k, yes⟩
  owned : ∀ i, i ≠ k → v.owned i = false

/-- the state says that the lock is held -/
def Held (g : Contest τ μ ι) (v : Arena.View ι) : Prop :=
  ∃ time, v.data.get g.name Lock.stateColumn = some (LockState.locked.cell time)

/-- what contender `i` leaves alone as he resolves; only the winner `k` touches more than the lock's row -/
structure Promise (g : Contest τ μ ι) (k i : ι) (v w : Arena.View ι) : Prop where
  cells : g.Own i v w
  held : g.Held v → g.Held w
  rest : i ≠ k → w.names = v.names ∧ w.catalogs = v.catalogs ∧ w.owned = v.owned

/-- what others leave alone as contender `i` resolves -/
structure Bears (g : Contest τ μ ι) (k i : ι) (v w : Arena.View ι) : Prop where
  cell : g.Untouched i v w
  held : g.Held v → g.Held w
  rest : i = k → w.names = v.names ∧ w.catalogs = v.catalogs ∧ w.owned = v.owned

omit [DecidableEq ι] in
theorem Bears.trans {k i : ι} {u v w : Arena.View ι} (h : g.Bears k i u v) (h' : g.Bears k i v w) :
    g.Bears k i u w := by
  refine ⟨h'.cell.trans h.cell, h'.held ∘ h.held, fun e => ?_⟩
  obtain ⟨names, catalogs, owned⟩ := h.rest e
  obtain ⟨names', catalogs', owned'⟩ := h'.rest e
  exact ⟨names'.trans names, catalogs'.trans catalogs, owned'.trans owned⟩

omit [DecidableEq ι] in
theorem Promise.bears {k i j : ι} {v w : Arena.View ι} (hij : i ≠ j) (h : g.Promise k i v w) : g.Bears k j v w :=
  ⟨h.cells j (Ne.symm hij), h.held, fun e => h.rest fun e' => hij (e'.trans e.symm)⟩

/-! ### What is found in the row -/

namespace Deciding

variable {k : ι} {v : Arena.View ι} {bs : List Bid}

omit [DecidableEq ι]

theorem of_mem (h : g.Deciding k v) (mem : ∀ b, b ∈ bs ↔ ∃ c u, v.data.get g.name c = some u ∧ Bid.ofCell? u = some b)
    {b : Bid} (hb : b ∈ bs) : ∃ i, b.signature = g.signature i ∧ (b.owned = true → i = k) := by
  obtain ⟨c, u, hu, hb⟩ := (mem b).1 hb
  rcases h.cells c u hu with ⟨_, long⟩ | ⟨i, _, rfl | ⟨rfl, time, rfl⟩⟩
  · rw [Bid.ofCell?_of_length long] at hb
    cases hb
  · rw [Bid.ofCell?_openCell] at hb
    cases hb
    exact ⟨i, rfl, fun no => by cases no⟩
  · rw [Bid.ofCell?_ownedCell] at hb
    cases hb
    exact ⟨i, rfl, fun _ => rfl⟩

/-- the winner's bid is the highest -/
theorem highest (h : g.Deciding k v) (mem : ∀ b, b ∈ bs ↔ ∃ c u, v.data.get g.name c = some u ∧ Bid.ofCell? u = some b)
    (largest : ∀ i, (g.signature i).toNat ≤ (g.signature k).toNat) : Bid.highest bs = some (g.signature k) := by
  obtain ⟨u, hu, yes, hb⟩ := h.bid
  refine Bid.highest_eq (b := ⟨g.signature k, yes⟩) ((mem _).2 ⟨_, u, hu, hb⟩) fun c hc => ?_
  obtain ⟨i, hi, _⟩ := h.of_mem mem hc
  rw [hi]
  exact largest i

/-! ### What keeps the row in order -/

theorem putState (h : g.Deciding k v) (st : LockState) (time : UInt64) :
    g.Deciding k { v with data := v.data.put g.name Lock.stateColumn (st.cell time) } := by
  refine ⟨fun c u hu => ?_, ?_, h.owned⟩
  · rw [Table.get_put] at hu
    split_ifs at hu with e
    · cases hu
      exact .inl ⟨e.2.symm, st.length_cell time⟩
    · exact h.cells c u hu
  · obtain ⟨u, hu, hb⟩ := h.bid
    refine ⟨u, ?_, hb⟩
    rw [Table.get_put, if_neg fun e => g.signature_ne_zero k e.2.symm]
    exact hu

theorem withdraw (distinct : Function.Injective g.signature) (h : g.Deciding k v) {i : ι} (hi : i ≠ k) :
    g.Deciding k { v with data := v.data.deleteColumn g.name (g.signature i) } := by
  refine ⟨fun c u hu => ?_, ?_, h.owned⟩
  · rw [Table.get_deleteColumn] at hu
    split_ifs at hu
    exact h.cells c u hu
  · obtain ⟨u, hu, hb⟩ := h.bid
    refine ⟨u, ?_, hb⟩
    rw [Table.get_deleteColumn, if_neg fun e => hi (distinct e.2)]
    exact hu

theorem win (h : g.Deciding k v) (time : UInt64) :
    g.Deciding k { v with data := v.data.put g.name (g.signature k) (Bid.ownedCell (g.signature k) time) } := by
  refine ⟨fun c u hu => ?_, ⟨_, ?_, true, Bid.ofCell?_ownedCell _ time⟩, h.owned⟩
  · rw [Table.get_put] at hu
    split_ifs at hu with e
    · cases hu
      exact .inr ⟨k, e.2.symm, .inr ⟨rfl, time, rfl⟩⟩
    · exact h.cells c u hu
  · rw [Table.get_put, if_pos ⟨rfl, rfl⟩]

end Deciding

/-! ### Promises of single calls -/

section Promises

variable {k i : ι} {v : Arena.View ι}

omit [DecidableEq ι]

theorem promise_nothing : g.Promise k i v v := ⟨fun _ _ => rfl, id, fun _ => ⟨rfl, rfl, rfl⟩⟩

theorem promise_locked (time : UInt64) :
    g.Promise k i v { v with data := v.data.put g.name Lock.stateColumn (LockState.locked.cell time) } := by
  refine ⟨fun j _ => ?_, fun _ => ⟨time, ?_⟩, fun _ => ⟨rfl, rfl, rfl⟩⟩
  · rw [Table.get_put, if_neg fun e => g.signature_ne_zero j e.2.symm]
  · rw [Table.get_put, if_pos ⟨rfl, rfl⟩]

theorem promise_withdraw (distinct : Function.Injective g.signature) :
    g.Promise k i v { v with data := v.data.deleteColumn g.name (g.signature i) } := by
  refine ⟨fun j hj => ?_, fun ⟨time, held⟩ => ⟨time, ?_⟩, fun _ => ⟨rfl, rfl, rfl⟩⟩
  · rw [Table.get_deleteColumn, if_neg fun e => hj (distinct e.2.symm)]
  · rw [Table.get_deleteColumn, if_neg fun e => g.signature_ne_zero i e.2]
    exact held

theorem promise_win (distinct : Function.Injective g.signature) (u : Bytes) :
    g.Promise k i v { v with data := v.data.put g.name (g.signature i) u } := by
  refine ⟨fun j hj => ?_, fun ⟨time, held⟩ => ⟨time, ?_⟩, fun _ => ⟨rfl, rfl, rfl⟩⟩
  · rw [Table.get_put, if_neg fun e => hj (distinct e.2.symm)]
  · rw [Table.get_put, if_neg fun e => g.signature_ne_zero i e.2]
    exact held

/-- the winner may touch all but the lock's row -/
theorem promise_rest {w : Arena.View ι} (data : w.data = v.data) : g.Promise k k v w :=
  ⟨fun j _ => by rw [data], fun ⟨time, held⟩ => ⟨time, by rw [data, held]⟩, fun e => absurd rfl e⟩

end Promises

/-! ### Losers -/

/-- a loser is told so and his bid is gone -/
theorem loser_safe (distinct : Function.Injective g.signature) (rel : g.Attends D N) {k i : ι}
    (largest : ∀ i, (g.signature i).toNat ≤ (g.signature k).toNat) (hi : i ≠ k) (v : Arena.View ι) :
    (g.stepwise i).resolve.Safe (fun s v => Arena.Shows D N s v ∧ g.Deciding k v) (g.Bears k i) (g.Promise k i)
      (fun o w => o = .ok false ∧ w.data.get g.name (g.signature i) = none) v := by
  have gone : ∀ v w : Arena.View ι, v.data.get g.name (g.signature i) = none → g.Bears k i v w →
      w.data.get g.name (g.signature i) = none := fun v w none bears => by rw [bears.cell, none]
  have removed : ∀ t : Table Column,
      (t.deleteColumn g.name (g.signature i)).get g.name (g.signature i) = none := fun t => by
    rw [Table.get_deleteColumn, if_pos ⟨rfl, rfl⟩]
  simp only [Lock.resolve, Lock.bids, Lock.writeState, bind_map_left, bind_assoc]
  refine safe_call fun v _ => (rel.values i v).keep ?_
  intro inv us _ h
  obtain ⟨mem, rfl⟩ := h
  refine ⟨inv, promise_nothing, ?_⟩
  split_ifs with rival largestIsMine
  · refine safe_call fun v _ => (rel.deleteColumn i v _).keep_step ?_
    intro inv
    refine ⟨inv.withdraw distinct hi, promise_withdraw distinct, safe_call fun v bears => (now i v).keep ?_⟩
    intro inv time _ h
    obtain ⟨_, rfl⟩ := h
    have none := gone _ _ (removed _) bears
    refine ⟨inv, promise_nothing, safe_call fun v bears => (rel.put i v _ _).keep_step ?_⟩
    intro inv
    refine ⟨inv.putState _ _, promise_locked _, safe_pure fun w bears' => ⟨rfl, ?_⟩⟩
    refine gone _ _ ?_ bears'
    rw [Table.get_put, if_neg fun e => g.signature_ne_zero i e.2.symm]
    exact gone _ _ none bears
  · refine safe_call fun v _ => (rel.deleteColumn i v _).keep_step ?_
    intro inv
    refine ⟨inv.withdraw distinct hi, promise_withdraw distinct, safe_pure fun w bears => ⟨rfl, ?_⟩⟩
    exact gone _ _ (removed _) bears
  · -- the winner's bid is in the row and higher
    rw [not_not, inv.highest mem largest] at largestIsMine
    exact absurd (distinct (Option.some.inj largestIsMine)).symm hi

/-! ### The winner -/

/-- the winner's bid is owned, and the state says that the lock is held -/
structure Won (g : Contest τ μ ι) (k : ι) (v : Arena.View ι) : Prop where
  bid : ∃ time, v.data.get g.name (g.signature k) = some (Bid.ownedCell (g.signature k) time)
  held : g.Held v

/-- the length of the lock's file is stored, and known in the winner's process -/
structure Recorded (g : Contest τ μ ι) (k : ι) (v : Arena.View ι) : Prop where
  stored : v.names.get (Catalog.lengthRow g.name) Catalog.lengthColumn = some (Bytes.ofUInt64 1)
  known : (v.catalogs (g.contender k).process).lengths[g.name]? = some 1

omit [DecidableEq ι] in
theorem Bears.won {k : ι} {v w : Arena.View ι} (bears : g.Bears k k v w) (h : g.Won k v) : g.Won k w :=
  ⟨by rw [bears.cell]; exact h.bid, bears.held h.held⟩

omit [DecidableEq ι] in
theorem Bears.recorded {k : ι} {v w : Arena.View ι} (bears : g.Bears k k v w) (h : g.Recorded k v) :
    g.Recorded k w := by
  obtain ⟨names, catalogs, _⟩ := bears.rest rfl
  exact ⟨by rw [names]; exact h.stored, by rw [catalogs]; exact h.known⟩

omit [DecidableEq ι] in
/-- the entry in the listing goes to another row -/
theorem Recorded.list {k : ι} {v : Arena.View ι} (h : g.Recorded k v) (c : Column) (u : Bytes) :
    g.Recorded k { v with names := v.names.put Catalog.listing c u } := by
  refine ⟨?_, h.known⟩
  rw [Table.get_put, if_neg fun e => Catalog.lengthRow_ne_listing g.name e.1.symm]
  exact h.stored

/-- the length is set in memory, stored, listed, and no longer dirty -/
theorem record_safe (rel : g.Attends D N) (k : ι) {v : Arena.View ι} (won : g.Won k v) :
    ((g.stepwise k).catalog.setLength g.name 1 true).Safe (fun s v => Arena.Shows D N s v ∧ g.Deciding k v) (g.Bears k k)
      (g.Promise k k) (fun o w => ∃ a, o = .ok a ∧ g.Won k w ∧ g.Recorded k w) v := by
  simp only [Catalog.setLength, Catalog.persist, Part.modify, bind_assoc, if_true]
  refine safe_call fun v bears => (catalogRead _ v).keep_next ?_
  intro inv
  replace won := bears.won won
  refine ⟨inv, promise_nothing, safe_call fun w bears => (catalogWrite _ w _).keep_step ?_⟩
  intro inv
  replace won := bears.won won
  have known : (Function.update w.catalogs (g.contender k).process
      ((v.catalogs (g.contender k).process).setLength g.name 1) (g.contender k).process).lengths[g.name]? = some 1 := by
    rw [Function.update_self, CatalogState.setLength, Std.ExtTreeMap.getElem?_insert_self]
  refine ⟨⟨inv.cells, inv.bid, inv.owned⟩, promise_rest rfl, ?_⟩
  refine safe_call fun v bears => (rel.namesPut _ v _ _ _).keep_step ?_
  intro inv
  replace won : g.Won k v := bears.won ⟨won.bid, won.held⟩
  replace known : (v.catalogs (g.contender k).process).lengths[g.name]? = some 1 := by
    rw [(bears.rest rfl).2.1]
    exact known
  have stored : (v.names.put (Catalog.lengthRow g.name) Catalog.lengthColumn (Bytes.ofUInt64 1)).get
      (Catalog.lengthRow g.name) Catalog.lengthColumn = some (Bytes.ofUInt64 1) := by
    rw [Table.get_put, if_pos ⟨rfl, rfl⟩]
  refine ⟨⟨inv.cells, inv.bid, inv.owned⟩, promise_rest rfl, ?_⟩
  refine safe_call fun w bears => (rel.namesPut _ w _ _ _).keep_step ?_
  intro inv
  replace won : g.Won k w := bears.won ⟨won.bid, won.held⟩
  have recorded := (bears.recorded ⟨stored, known⟩).list (Catalog.listingColumn g.name)
    (Utf8.encode (Catalog.lengthRow g.name))
  refine ⟨⟨inv.cells, inv.bid, inv.owned⟩, promise_rest rfl, safe_call fun v bears => (catalogRead _ v).keep_next ?_⟩
  intro inv
  replace won : g.Won k v := bears.won ⟨won.bid, won.held⟩
  replace recorded := bears.recorded recorded
  refine ⟨inv, promise_nothing, safe_lift fun w bears => (catalogWrite _ w _).keep_step ?_⟩
  intro inv
  replace won := bears.won won
  have clean : (Function.update w.catalogs (g.contender k).process
      ((v.catalogs (g.contender k).process).clean g.name) (g.contender k).process).lengths[g.name]? = some 1 := by
    rw [Function.update_self]
    exact recorded.known
  replace recorded := bears.recorded recorded
  refine ⟨⟨inv.cells, inv.bid, inv.owned⟩, promise_rest rfl, fun u bears' => ⟨(), rfl, ?_, ?_⟩⟩
  · exact bears'.won ⟨won.bid, won.held⟩
  · exact bears'.recorded ⟨recorded.stored, clean⟩

/-- the winner is told so; he owns the lock, and the row and the catalog show it -/
theorem winner_safe (distinct : Function.Injective g.signature) (rel : g.Attends D N) {k : ι}
    (largest : ∀ i, (g.signature i).toNat ≤ (g.signature k).toNat) (v : Arena.View ι) :
    (g.stepwise k).resolve.Safe (fun s v => Arena.Shows D N s v ∧ g.Deciding k v) (g.Bears k k) (g.Promise k k)
      (fun o w => o = .ok true ∧ g.Won k w ∧ g.Recorded k w ∧ w.owned k = true) v := by
  simp only [Lock.resolve, Lock.bids, Lock.writeState, bind_map_left, bind_assoc]
  refine safe_call fun v _ => (rel.values k v).keep ?_
  intro inv us _ h
  obtain ⟨mem, rfl⟩ := h
  refine ⟨inv, promise_nothing, ?_⟩
  split_ifs with rival largestIsOther
  · -- only the winner's own bid can be owned
    obtain ⟨b, hb, owned⟩ := List.any_eq_true.1 rival
    obtain ⟨i, hi, mine⟩ := inv.of_mem mem hb
    rw [Bool.and_eq_true, decide_eq_true_eq] at owned
    rw [mine owned.1] at hi
    exact absurd hi owned.2
  · exact absurd (inv.highest mem largest) largestIsOther
  refine safe_call fun v _ => (now k v).keep ?_
  intro inv time _ h
  obtain ⟨_, rfl⟩ := h
  refine ⟨inv, promise_nothing, safe_call fun v _ => (rel.put k v _ _).keep_step ?_⟩
  intro inv
  have bid : ∃ time', (v.data.put g.name (g.signature k) (Bid.ownedCell (g.signature k) time)).get g.name (g.signature k) =
      some (Bid.ownedCell (g.signature k) time') := ⟨time, by rw [Table.get_put, if_pos ⟨rfl, rfl⟩]⟩
  refine ⟨inv.win time, promise_win distinct _, safe_call fun v bears => (now k v).keep ?_⟩
  intro inv time v h
  obtain ⟨_, rfl⟩ := h
  replace bid : ∃ time', v.data.get g.name (g.signature k) = some (Bid.ownedCell (g.signature k) time') := by
    rw [bears.cell]
    exact bid
  refine ⟨inv, promise_nothing, safe_call fun w bears => (rel.put k w _ _).keep_step ?_⟩
  intro inv
  have won : g.Won k { w with data := w.data.put g.name Lock.stateColumn (LockState.locked.cell time) } := by
    refine ⟨?_, time, by rw [Table.get_put, if_pos ⟨rfl, rfl⟩]⟩
    rw [Table.get_put, if_neg fun e => g.signature_ne_zero k e.2.symm, bears.cell]
    exact bid
  refine ⟨inv.putState _ _, promise_locked _, ?_⟩
  refine Safe.bind (fun v => ⟨rfl, id, fun _ => ⟨rfl, rfl, rfl⟩⟩) (record_safe rel k won) ?_
  intro _ v h
  obtain ⟨won, recorded⟩ := h
  refine safe_call fun w bears => (setOwned k w true).keep_step ?_
  intro inv
  replace won := bears.won won
  replace recorded := bears.recorded recorded
  refine ⟨⟨inv.cells, inv.bid, fun i hi => ?_⟩, promise_rest rfl, safe_pure fun u bears' => ⟨rfl, ?_, ?_, ?_⟩⟩
  · exact (Function.update_of_ne hi true w.owned).trans (inv.owned i hi)
  · exact bears'.won ⟨won.bid, won.held⟩
  · exact bears'.recorded ⟨recorded.stored, recorded.known⟩
  · rw [(bears'.rest rfl).2.2]
    exact Function.update_self k true w.owned

/-! ## The phases of a round -/

/-- what is left when all contenders have gone through a phase -/
theorem phase_outcomes {α : Type} {program : Lock (Steps (Arena τ μ ι)) → Steps (Arena τ μ ι) α} {Inv : Arena.View ι → Prop}
    (rely guar : ι → Arena.View ι → Arena.View ι → Prop) {post : ι → Except Error α → Arena.View ι → Prop}
    (refl : ∀ i v, rely i v v) (trans : ∀ i u v w, rely i u v → rely i v w → rely i u w)
    (compatible : ∀ i j v w, i ≠ j → guar i v w → rely j v w)
    (ticks : ∀ time v, Inv v → Inv { v with clock := time } ∧ ∀ i, rely i v { v with clock := time })
    (safe : ∀ i v, (program (g.stepwise i)).Safe (fun s v => Arena.Shows D N s v ∧ Inv v) (rely i) (guar i) (post i) v)
    {s : Arena τ μ ι} {v : Arena.View ι} (shows : Arena.Shows D N s v) (inv : Inv v) (turns : List (UInt64 × ι))
    (ended : (Pool.run tick turns (g.phase program s)).Ended) :
    ∃ w, (Arena.Shows D N (Pool.run tick turns (g.phase program s)).state w ∧ Inv w) ∧
      ∀ i, ∃ o, (Pool.run tick turns (g.phase program s)).programs i = .done o ∧ post i o w := by
  have start : (g.phase program s).Sound (fun s v => Arena.Shows D N s v ∧ Inv v) rely guar post :=
    ⟨v, ⟨shows, inv⟩, fun i => safe i v⟩
  refine Pool.Sound.outcomes refl (Pool.run_sound refl trans compatible (fun time s v hs => ?_) turns start) ended
  have later : Arena.Shows D N (tick time s) { v with clock := time } :=
    ⟨hs.1.data, hs.1.names, hs.1.catalogs, rfl, hs.1.owned⟩
  exact ⟨_, ⟨later, (ticks time v hs.2).1⟩, (ticks time v hs.2).2⟩

theorem asking_outcomes (rel : g.Attends D N) {s : Arena τ μ ι} {v : Arena.View ι} (shows : Arena.Shows D N s v)
    (free : g.Free v) (turns : List (UInt64 × ι)) (ended : (Pool.run tick turns (g.phase Lock.canBid s)).Ended) :
    ∃ w, Arena.Shows D N (Pool.run tick turns (g.phase Lock.canBid s)).state w ∧ g.Free w ∧
      ∀ i, (Pool.run tick turns (g.phase Lock.canBid s)).programs i = .done (.ok true) := by
  obtain ⟨w, ⟨shows, free⟩, outcomes⟩ := phase_outcomes (fun _ _ _ => True) (fun _ _ _ => True) (fun _ _ => trivial)
    (fun _ _ _ _ _ _ => trivial) (fun _ _ _ _ _ _ => trivial)
    (fun _ _ free => ⟨⟨free.cells, free.owned⟩, fun _ => trivial⟩) (canBid_safe rel) shows free turns ended
  refine ⟨w, shows, free, fun i => ?_⟩
  obtain ⟨_, ended, rfl⟩ := outcomes i
  exact ended

theorem bidding_outcomes (distinct : Function.Injective g.signature) (rel : g.Attends D N) {s : Arena τ μ ι}
    {v : Arena.View ι} (shows : Arena.Shows D N s v) (bidding : g.Bidding v) (turns : List (UInt64 × ι))
    (ended : (Pool.run tick turns (g.phase Lock.register s)).Ended) :
    ∃ w, Arena.Shows D N (Pool.run tick turns (g.phase Lock.register s)).state w ∧ g.Bidding w ∧
      ∀ i, (Pool.run tick turns (g.phase Lock.register s)).programs i = .done (.ok ()) ∧
        w.data.get g.name (g.signature i) = some (Bid.openCell (g.signature i)) := by
  obtain ⟨w, ⟨shows, bidding⟩, outcomes⟩ := phase_outcomes g.Untouched g.Own (fun _ _ => rfl)
    (fun _ _ _ _ h h' => Eq.trans h' h) (fun _ j _ _ hij own => own j (Ne.symm hij))
    (fun _ _ inv => ⟨⟨inv.cells, inv.owned⟩, fun _ => rfl⟩)
    (register_safe distinct rel) shows bidding turns ended
  refine ⟨w, shows, bidding, fun i => ?_⟩
  obtain ⟨_, ended, rfl, cell⟩ := outcomes i
  exact ⟨ended, cell⟩

theorem resolving_outcomes (distinct : Function.Injective g.signature) (rel : g.Attends D N) {k : ι}
    (largest : ∀ i, (g.signature i).toNat ≤ (g.signature k).toNat) {s : Arena τ μ ι} {v : Arena.View ι}
    (shows : Arena.Shows D N s v) (deciding : g.Deciding k v) (turns : List (UInt64 × ι))
    (ended : (Pool.run tick turns (g.phase Lock.resolve s)).Ended) :
    ∃ w, (Arena.Shows D N (Pool.run tick turns (g.phase Lock.resolve s)).state w ∧ g.Deciding k w) ∧
      (∀ i, (Pool.run tick turns (g.phase Lock.resolve s)).programs i = .done (.ok (decide (i = k)))) ∧
      (∀ i, i ≠ k → w.data.get g.name (g.signature i) = none) ∧ g.Won k w ∧ g.Recorded k w ∧ w.owned k = true := by
  have safe : ∀ i v, (g.stepwise i).resolve.Safe (fun s v => Arena.Shows D N s v ∧ g.Deciding k v) (g.Bears k i)
      (g.Promise k i) (fun o w => o = .ok (decide (i = k)) ∧ (i ≠ k → w.data.get g.name (g.signature i) = none) ∧
        (i = k → g.Won k w ∧ g.Recorded k w ∧ w.owned k = true)) v := by
    intro i v
    by_cases hi : i = k
    · subst hi
      refine (winner_safe distinct rel largest v).mono ?_
      intro _ w h
      obtain ⟨rfl, won⟩ := h
      exact ⟨by rw [decide_eq_true rfl], fun e => absurd rfl e, fun _ => won⟩
    · refine (loser_safe distinct rel largest hi v).mono ?_
      intro _ w h
      obtain ⟨rfl, gone⟩ := h
      exact ⟨by rw [decide_eq_false hi], fun _ => gone, fun e => absurd e hi⟩
  obtain ⟨w, shows, outcomes⟩ := phase_outcomes (g.Bears k) (g.Promise k) (fun _ _ => ⟨rfl, id, fun _ => ⟨rfl, rfl, rfl⟩⟩)
    (fun _ _ _ _ => Bears.trans) (fun _ _ _ _ => Promise.bears)
    (fun _ _ inv => ⟨⟨inv.cells, inv.bid, inv.owned⟩, fun _ => ⟨rfl, id, fun _ => ⟨rfl, rfl, rfl⟩⟩⟩) safe shows deciding turns
    ended
  refine ⟨w, shows, fun i => ?_, fun i hi => ?_, ?_⟩
  · obtain ⟨_, ended, rfl, _⟩ := outcomes i
    exact ended
  · obtain ⟨_, _, _, gone, _⟩ := outcomes i
    exact gone hi
  · obtain ⟨_, _, _, _, won⟩ := outcomes k
    exact won rfl

/-! ## The round -/

/-- the contenders after turns in which they ask whether the lock is free -/
def afterAsking (g : Contest τ μ ι) (s : Arena τ μ ι) (asking : List (UInt64 × ι)) : Pool (Arena τ μ ι) ι Bool :=
  Pool.run tick asking (g.phase Lock.canBid s)

/-- then after turns in which they bid -/
def afterBidding (g : Contest τ μ ι) (s : Arena τ μ ι) (asking bidding : List (UInt64 × ι)) : Pool (Arena τ μ ι) ι Unit :=
  Pool.run tick bidding (g.phase Lock.register (g.afterAsking s asking).state)

/-- then after turns in which they resolve -/
def afterResolving (g : Contest τ μ ι) (s : Arena τ μ ι) (asking bidding resolving : List (UInt64 × ι)) :
    Pool (Arena τ μ ι) ι Bool :=
  Pool.run tick resolving (g.phase Lock.resolve (g.afterBidding s asking bidding).state)

omit [DecidableEq ι] in
/-- once all bids are in, the largest decides -/
theorem Bidding.deciding {v : Arena.View ι} (h : g.Bidding v) (k : ι)
    (bid : v.data.get g.name (g.signature k) = some (Bid.openCell (g.signature k))) : g.Deciding k v := by
  refine ⟨fun c u hu => ?_, ⟨_, bid, false, Bid.ofCell?_openCell _⟩, fun i _ => h.owned i⟩
  rcases h.cells c u hu with state | ⟨i, hc, hu⟩
  · exact .inl state
  · exact .inr ⟨i, hc, .inl hu⟩

omit [DecidableEq ι] in
/-- the row holds the state and the winner's bid, once the other bids are gone -/
theorem Deciding.row {k : ι} {v : Arena.View ι} (h : g.Deciding k v) (won : g.Won k v)
    (gone : ∀ i, i ≠ k → v.data.get g.name (g.signature i) = none) :
    ∃ time time', ∀ c, v.data.get g.name c = if c = Lock.stateColumn then some (LockState.locked.cell time)
      else if c = g.signature k then some (Bid.ownedCell (g.signature k) time') else none := by
  obtain ⟨⟨time', bid⟩, time, held⟩ := won
  refine ⟨time, time', fun c => ?_⟩
  split_ifs with state mine
  · rw [state, held]
  · rw [mine, bid]
  · cases e : v.data.get g.name c with
    | none => rfl
    | some u =>
      rcases h.cells c u e with ⟨hc, _⟩ | ⟨i, hc, _⟩
      · exact absurd hc state
      · have other : i ≠ k := fun e => mine (by rw [hc, e])
        rw [hc, gone i other] at e
        cases e

omit [DecidableEq ι] in
theorem Recorded.length {k : ι} {v : Arena.View ι} (h : g.Recorded k v) :
    Yields (Arena.Shows D N) ((g.catalog (ι := ι) (g.contender k).process).length g.name) v fun n _ => n = 1 := by
  refine (catalogRead _ v).next ?_
  simp only [h.known]
  exact yields_pure 1 rfl

/-- **A contended round has one winner, and it is the one with the largest signature.** All contenders ask on an empty row,
then all bid, then all resolve; the calls within a phase come in any order and at any times. All find the lock free, and in
the end the row holds the winner's bid and a held state, and the lock's file has length one. -/
theorem contended_round [Finite ι] [Nonempty ι] (g : Contest τ μ ι) (distinct : Function.Injective g.signature)
    (rel : g.Reliable D N) (s : Arena τ μ ι) (t m : Table Column) (data : D s.data t) (names : N s.names m)
    (empty : ∀ c, t.get g.name c = none) (free : ∀ i, s.owned i = false) (asking bidding resolving : List (UInt64 × ι))
    (askedAll : (g.afterAsking s asking).Ended) (bidAll : (g.afterBidding s asking bidding).Ended)
    (resolvedAll : (g.afterResolving s asking bidding resolving).Ended) :
    ∃ k, (∀ i, g.signature i ≤ g.signature k) ∧ (∀ i, (g.afterAsking s asking).programs i = .done (.ok true)) ∧
      (∀ i, (g.afterBidding s asking bidding).programs i = .done (.ok ())) ∧
      (∀ i, (g.afterResolving s asking bidding resolving).programs i = .done (.ok (decide (i = k)))) ∧
      let s' := (g.afterResolving s asking bidding resolving).state
      (∀ i, s'.owned i = decide (i = k)) ∧
      (∃ t' time time', D s'.data t' ∧ ∀ c, t'.get g.name c =
        if c = Lock.stateColumn then some (LockState.locked.cell time)
        else if c = g.signature k then some (Bid.ownedCell (g.signature k) time') else none) ∧
      (∃ m', N s'.names m' ∧ m'.get (Catalog.lengthRow g.name) Catalog.lengthColumn = some (Bytes.ofUInt64 1)) ∧
      ((g.catalog (g.contender k).process).length g.name s').1 = .ok 1 := by
  replace rel := rel.attends
  obtain ⟨k, largest⟩ := Finite.exists_max fun i => (g.signature i).toNat
  have start : Arena.Shows D N s { s with data := t, names := m } := ⟨data, names, rfl, rfl, rfl⟩
  obtain ⟨v, shows, isFree, askedOk⟩ := asking_outcomes rel start ⟨empty, free⟩ asking askedAll
  have start : g.Bidding v := by
    refine ⟨fun c u hu => ?_, isFree.owned⟩
    rw [isFree.cells] at hu
    cases hu
  obtain ⟨v, shows, bids, bidOk⟩ := bidding_outcomes distinct rel shows start bidding bidAll
  obtain ⟨v, ⟨shows, deciding⟩, resolvedOk, gone, won, recorded, owner⟩ :=
    resolving_outcomes distinct rel largest shows (bids.deciding k (bidOk k).2) resolving resolvedAll
  obtain ⟨time, time', row⟩ := deciding.row won gone
  refine ⟨k, fun i => UInt64.le_iff_toNat_le.2 (largest i), askedOk, fun i => (bidOk i).1, resolvedOk, fun i => ?_,
    ⟨v.data, time, time', shows.data, row⟩, ⟨v.names, shows.names, recorded.stored⟩, ?_⟩
  · refine (congrFun shows.owned i).trans ?_
    by_cases hi : i = k
    · rw [hi, owner, decide_eq_true rfl]
    · rw [deciding.owned i hi, decide_eq_false hi]
  · obtain ⟨n, s', _, run, _, rfl⟩ := recorded.length.run shows
    exact congrArg Prod.fst run

/-- two contenders for a lock in a table -/
def ofTwo : Contest (Table Column) (Table Column) Bool :=
  ⟨"lock", Table.plainRows 64, Table.plainRows 64, fun large => { signature := if large then 9 else 4 }⟩

/-- the smaller signature reads the row after the winner's bid is owned, and writes the state between the winner's calls -/
theorem contended_round_of_two :
    let asking : List (UInt64 × Bool) := [(1, false), (1, true)]
    let bidding : List (UInt64 × Bool) := [(2, false), (2, true), (3, true), (3, false), (4, false), (4, true)]
    let resolving : List (UInt64 × Bool) := [(5, true), (5, true), (6, true), (7, false), (7, false), (7, false),
      (8, true), (8, true), (8, true), (9, false), (9, true), (9, true), (9, true), (9, true), (9, true), (9, true)]
    let start : Arena.View Bool := { data := .empty, names := .empty }
    (ofTwo.afterResolving start asking bidding resolving).Ended ∧ ∃ k, (∀ i, ofTwo.signature i ≤ ofTwo.signature k) ∧
      (∀ i, (ofTwo.afterResolving start asking bidding resolving).programs i = .done (.ok (decide (i = k)))) ∧
      ∀ i, (ofTwo.afterResolving start asking bidding resolving).state.owned i = decide (i = k) := by
  intro asking bidding resolving start
  have ended : (ofTwo.afterResolving start asking bidding resolving).Ended := by
    unfold Pool.Ended
    decide +kernel
  obtain ⟨k, largest, _, _, outcomes, owners, _⟩ := contended_round (D := Eq) (N := Eq) ofTwo
    (by rintro (_ | _) (_ | _) <;> decide)
    ⟨Table.plainRows_serve.scan_mono (fun _ _ h => h ▸ .refl _), Table.plainRows_trim,
      Table.plainRows_serve.scan_mono (fun _ _ h => h ▸ .refl _), Table.plainRows_trim⟩
    start .empty .empty rfl rfl (fun _ => Table.get_empty _ _) (fun _ => rfl) asking bidding resolving
    (by unfold Pool.Ended; decide +kernel) (by unfold Pool.Ended; decide +kernel) ended
  exact ⟨ended, k, largest, outcomes, owners⟩

end Contest

end RowFiles
