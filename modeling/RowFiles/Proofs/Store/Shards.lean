/-
Sharded stores cannot be told from the store beneath them.

A physical name tells its row exactly if the last occurrence of the delimiter in it is the one that was put there
(`ShardSettings.rowOf_shardRow_iff`). So it is if some character of the delimiter is no digit, because digits alone follow
it. Then the shards of a row are rows of its own, and a sharded store serves the table whose columns it spreads
(`Sharded.rows_serve`).

`sharded_run_agrees`: every run of calls is answered as by the plain table, and each physical row holds the columns of its
shard. Cells of a row may come in another order, and so may keys.
-/
import RowFiles.Proofs.Store.Cells
import Std.Data.String.ToNat

namespace RowFiles

open Run

/-! ## Names of physical rows -/

/-- nothing is found before a text that does not occur -/
theorem beforeLast_eq_none {d l : List Char} (h : ¬ d <:+: l) : beforeLast d l = none := by
  induction l with
  | nil => exact if_neg fun e => h (List.infix_nil.2 e)
  | cons c l ih =>
    have here : d.isPrefixOf (c :: l) = false :=
      Bool.eq_false_iff.2 fun there => h (List.isPrefixOf_iff_prefix.1 there).isInfix
    rw [beforeLast, ih fun there => h (List.infix_cons there), here]
    rfl

/-- what occurs is found -/
theorem beforeLast_of_infix {d l : List Char} (h : d <:+: l) : ∃ before, beforeLast d l = some before := by
  induction l with
  | nil => exact ⟨[], if_pos (List.infix_nil.1 h)⟩
  | cons c l ih =>
    rw [beforeLast]
    cases later : beforeLast d l with
    | some before => exact ⟨c :: before, rfl⟩
    | none =>
      rcases List.infix_cons_iff.1 h with here | there
      · exact ⟨[], if_pos (List.isPrefixOf_iff_prefix.2 here)⟩
      · obtain ⟨before, found⟩ := ih there
        rw [later] at found
        cases found

/-- nothing stands before the last occurrence of a beginning exactly if it does not occur again behind itself -/
theorem beforeLast_eq_nil_iff {d x : List Char} (nonempty : d ++ x ≠ []) :
    beforeLast d (d ++ x) = some [] ↔ ¬ d <:+: (d ++ x).tail := by
  cases whole : d ++ x with
  | nil => exact absurd whole nonempty
  | cons c l =>
    have here : d.isPrefixOf (c :: l) = true := List.isPrefixOf_iff_prefix.2 ⟨x, whole⟩
    rw [List.tail_cons, beforeLast, here]
    by_cases again : d <:+: l
    · obtain ⟨before, found⟩ := beforeLast_of_infix again
      simp [found, again]
    · simp [beforeLast_eq_none again, again]

/-- what is found stays the last occurrence behind any text -/
theorem beforeLast_append {d l before : List Char} (found : beforeLast d l = some before) (k : List Char) :
    beforeLast d (k ++ l) = some (k ++ before) := by
  induction k with
  | nil => exact found
  | cons c k ih => rw [List.cons_append, beforeLast, ih, List.cons_append]

section

variable {α : Type} {p : α → Prop} {d x : List α}

/-- the last member of which `p` holds -/
theorem exists_last (h : ∃ c ∈ d, p c) : ∃ a c b, d = a ++ c :: b ∧ p c ∧ ∀ y ∈ b, ¬ p y := by
  induction d with
  | nil => simp at h
  | cons c d ih =>
    by_cases later : ∃ y ∈ d, p y
    · obtain ⟨a, y, b, rfl, hy, rest⟩ := ih later
      exact ⟨c :: a, y, b, rfl, hy, rest⟩
    · obtain ⟨y, hy, py⟩ := h
      rcases List.mem_cons.1 hy with rfl | hy
      · exact ⟨[], y, d, rfl, py, fun z hz pz => later ⟨z, hz, pz⟩⟩
      · exact absurd ⟨y, hy, py⟩ later

/-- A list with a member of which `p` holds does not occur again behind its beginning, if `p` holds of nothing that
follows it: the last such member would come twice. -/
theorem not_infix_tail (mark : ∃ c ∈ d, p c) (rest : ∀ c ∈ x, ¬ p c) : ¬ d <:+: (d ++ x).tail := by
  obtain ⟨a, c, b, rfl, hc, hb⟩ := exists_last mark
  rintro ⟨s, t, e⟩
  obtain ⟨h, whole⟩ : ∃ h, a ++ c :: (b ++ x) = ((h :: s) ++ a) ++ c :: (b ++ t) := by
    cases l : a ++ c :: (b ++ x) with
    | nil => simp at l
    | cons h l' =>
      refine ⟨h, ?_⟩
      have same : (a ++ c :: b ++ x).tail = l' := by rw [List.append_assoc, List.cons_append, l, List.tail_cons]
      rw [← same, ← e]
      simp
  rcases List.append_eq_append_iff.1 whole with ⟨u, longer, again⟩ | ⟨u, longer, _⟩
  · cases u with
    | nil =>
      have := congrArg List.length longer
      simp only [List.length_append, List.length_cons, List.length_nil] at this
      omega
    | cons y u =>
      have later : b ++ x = u ++ c :: (b ++ t) := (List.cons.inj again).2
      have there : c ∈ b ++ x := by
        rw [later]
        exact List.mem_append_right u List.mem_cons_self
      exact (List.mem_append.1 there).elim (fun h => hb c h hc) fun h => rest c h hc
  · have := congrArg List.length longer
    simp only [List.length_append, List.length_cons] at this
    omega

end

/-- what is sorted into `n` boxes is what was there -/
theorem perm_boxes {α : Type} (f : α → Nat) (l : List α) (n : Nat) :
    ((List.range n).flatMap fun i => l.filter fun a => f a = i).Perm (l.filter fun a => f a < n) := by
  induction n with
  | zero => simp
  | succ n ih =>
    have parts := List.filter_append_perm (fun a => decide (f a < n)) (l.filter fun a => f a < n + 1)
    have below : ((l.filter fun a => f a < n + 1).filter fun a => decide (f a < n)) = l.filter fun a => f a < n := by
      rw [List.filter_filter]
      congr 1
      funext a
      rw [← Bool.decide_and]
      exact decide_eq_decide.2 ⟨fun h => h.1, fun h => ⟨h, by omega⟩⟩
    have last : ((l.filter fun a => f a < n + 1).filter fun a => !decide (f a < n)) = l.filter fun a => f a = n := by
      rw [List.filter_filter]
      congr 1
      funext a
      rw [← decide_not, ← Bool.decide_and]
      exact decide_eq_decide.2 ⟨fun h => by omega, fun h => by omega⟩
    rw [below, last] at parts
    rw [List.range_succ, List.flatMap_append, List.flatMap_singleton]
    exact (ih.append_right _).trans parts

namespace ShardSettings

variable {s : ShardSettings}

/-- shard numbers are written in digits -/
theorem isDigit_of_mem_shard {i : Nat} {c : Char} (h : c ∈ (toString i).toList) : c.isDigit = true := by
  rw [Nat.toString_eq_ofList_toDigits, String.toList_ofList] at h
  exact Nat.isDigit_of_mem_toDigits (by omega) (by omega) h

/-- the delimiter occurs again behind its own beginning, once the number of a shard follows it -/
def Recurs (s : ShardSettings) (i : Nat) : Prop := s.delimiter.toList <:+: (s.delimiter.toList ++ (toString i).toList).tail

instance (i : Nat) : Decidable (s.Recurs i) := inferInstanceAs (Decidable (_ <:+: _))

/-- **A physical name tells its row**, whatever the row's own name, exactly if the delimiter does not recur. -/
theorem rowOf_shardRow_iff (k : Key) (i : Nat) : s.rowOf (s.shardRow k i) = k ↔ ¬ s.Recurs i := by
  have whole : (s.shardRow k i).toList = k.toList ++ (s.delimiter.toList ++ (toString i).toList) := by
    simp [shardRow]
  have nonempty : s.delimiter.toList ++ (toString i).toList ≠ [] := by
    rw [Nat.toString_eq_ofList_toDigits, String.toList_ofList]
    exact List.append_ne_nil_of_right_ne_nil _ Nat.toDigits_ne_nil
  obtain ⟨before, found⟩ := beforeLast_of_infix (List.prefix_append s.delimiter.toList (toString i).toList).isInfix
  rw [Recurs, ← beforeLast_eq_nil_iff nonempty, found, rowOf, whole, beforeLast_append found, ← String.toList_inj]
  simp

/-- a delimiter does not recur if some character of it is no digit, because digits alone follow it -/
theorem not_recurs (mark : ∃ c ∈ s.delimiter.toList, c.isDigit = false) (i : Nat) : ¬ s.Recurs i :=
  not_infix_tail mark fun c hc => by simp [isDigit_of_mem_shard hc]

theorem rowOf_shardRow (mark : ∃ c ∈ s.delimiter.toList, c.isDigit = false) (k : Key) (i : Nat) :
    s.rowOf (s.shardRow k i) = k :=
  (rowOf_shardRow_iff k i).2 (not_recurs mark i)

/-- a physical row belongs to one shard of one row -/
theorem eq_of_shardRow_eq {k l : Key} {i j : Nat} (hi : ¬ s.Recurs i) (hj : ¬ s.Recurs j)
    (same : s.shardRow k i = s.shardRow l j) : k = l ∧ i = j := by
  obtain rfl : k = l := by rw [← (rowOf_shardRow_iff k i).2 hi, same, (rowOf_shardRow_iff l j).2 hj]
  exact ⟨rfl, Nat.repr_inj.1 ((String.append_right_inj _).1 same)⟩

theorem shardRow_inj (mark : ∃ c ∈ s.delimiter.toList, c.isDigit = false) {k l : Key} {i j : Nat} :
    s.shardRow k i = s.shardRow l j ↔ k = l ∧ i = j := by
  refine ⟨eq_of_shardRow_eq (not_recurs mark i) (not_recurs mark j), ?_⟩
  rintro ⟨rfl, rfl⟩
  rfl

/-- the physical rows of a row -/
def shardRows (s : ShardSettings) (k : Key) : List Key := (List.range s.shards.toNat).map (s.shardRow k)

theorem shardOf_lt (positive : s.shards ≠ 0) (c : Column) : s.shardOf c < s.shards.toNat :=
  Nat.mod_lt _ (Nat.pos_of_ne_zero fun e => positive (UInt64.toNat_inj.1 e))

theorem mem_shardRows (mark : ∃ c ∈ s.delimiter.toList, c.isDigit = false) (positive : s.shards ≠ 0) {k l : Key}
    {c : Column} : s.shardKey l c ∈ s.shardRows k ↔ k = l := by
  rw [shardRows, List.mem_map]
  constructor
  · rintro ⟨i, _, e⟩
    exact ((shardRow_inj mark).1 e).1
  · rintro rfl
    exact ⟨s.shardOf c, List.mem_range.2 (shardOf_lt positive c), rfl⟩

/-! ## Rows spread over shards -/

namespace Spread

variable {t u : Table Column}

/-- a physical row holds the columns of its shard, and no others -/
theorem get_shardRow (h : s.Spread t u) (mark : ∃ c ∈ s.delimiter.toList, c.isDigit = false) (k : Key) (i : Nat)
    (c : Column) : u.get (s.shardRow k i) c = if s.shardOf c = i then t.get k c else none := by
  split_ifs with here
  · rw [← h.cells, shardKey, here]
  · cases found : u.get (s.shardRow k i) c with
    | none => rfl
    | some v =>
      obtain ⟨l, e⟩ := h.owned found
      exact absurd ((shardRow_inj mark).1 e).2.symm here

theorem row_shardRow (h : s.Spread t u) (mark : ∃ c ∈ s.delimiter.toList, c.isDigit = false) (k : Key) (i : Nat) :
    u.row (s.shardRow k i) = (t.row k).filter fun p => s.shardOf p.1 = i := by
  refine Table.row_eq ((t.row_ascending k).filter _) fun c v => ?_
  rw [List.mem_filter, Table.mem_row, h.get_shardRow mark, decide_eq_true_eq]
  split_ifs with here
  · simp [here]
  · simp [here]

/-- deleting the shards of a row deletes the row -/
theorem delete (h : s.Spread t u) (mark : ∃ c ∈ s.delimiter.toList, c.isDigit = false) (positive : s.shards ≠ 0) {k : Key}
    {w : Table Column} (cells : ∀ q c, w.get q c = if q ∈ s.shardRows k then none else u.get q c) :
    s.Spread (t.delete k) w where
  cells l c := by
    rw [cells, Table.get_delete, h.cells]
    exact if_congr (mem_shardRows mark positive) rfl rfl
  owned {q c v} found := by
    rw [cells] at found
    split_ifs at found
    exact h.owned found

theorem hasKey_iff (h : s.Spread t u) (mark : ∃ c ∈ s.delimiter.toList, c.isDigit = false) (positive : s.shards ≠ 0)
    (k : Key) : (s.shardRows k).any u.hasKey = t.hasKey k := by
  rw [Bool.eq_iff_iff, List.any_eq_true, Table.hasKey_iff]
  simp only [Table.hasKey_iff]
  constructor
  · rintro ⟨q, own, c, v, found⟩
    obtain ⟨l, rfl⟩ := h.owned found
    obtain rfl := (mem_shardRows mark positive).1 own
    exact ⟨c, v, (h.cells k c).symm.trans found⟩
  · rintro ⟨c, v, found⟩
    exact ⟨s.shardKey k c, (mem_shardRows mark positive).2 rfl, c, v, (h.cells k c).trans found⟩

theorem values_perm (h : s.Spread t u) (mark : ∃ c ∈ s.delimiter.toList, c.isDigit = false) (positive : s.shards ≠ 0)
    (k : Key) : ((s.shardRows k).flatMap u.values).Perm (t.values k) := by
  have boxes : (s.shardRows k).flatMap u.values =
      ((List.range s.shards.toNat).flatMap fun i => (t.row k).filter fun p => s.shardOf p.1 = i).map Prod.snd := by
    rw [shardRows, List.flatMap_map, List.map_flatMap]
    congr 1
    funext i
    rw [Table.values, h.row_shardRow mark]
  have all : ((t.row k).filter fun p => s.shardOf p.1 < s.shards.toNat) = t.row k :=
    List.filter_eq_self.2 fun p _ => decide_eq_true (shardOf_lt positive p.1)
  rw [boxes, Table.values]
  exact ((perm_boxes (fun p => s.shardOf p.1) (t.row k) s.shards.toNat).trans (.of_eq all)).map Prod.snd

/-- the physical keys are those of the shards that have a column -/
theorem mem_keys_iff (h : s.Spread t u) (mark : ∃ c ∈ s.delimiter.toList, c.isDigit = false) (k : Key) :
    (∃ q ∈ u.keys, s.rowOf q = k) ↔ k ∈ t.keys := by
  simp only [Table.mem_keys]
  constructor
  · rintro ⟨q, ⟨c, v, found⟩, rfl⟩
    obtain ⟨l, rfl⟩ := h.owned found
    rw [shardKey, rowOf_shardRow mark]
    exact ⟨c, v, (h.cells l c).symm.trans found⟩
  · rintro ⟨c, v, found⟩
    exact ⟨s.shardKey k c, ⟨c, v, (h.cells k c).trans found⟩, rowOf_shardRow mark k _⟩

end Spread

end ShardSettings

namespace Sharded

variable {τ : Type} {Shows : τ → Table Column → Prop} {s : ShardSettings} {inner : Rows (Run τ)}

/-! ## Calls for all shards -/

theorem forShards_delete (serves : inner.Serves Shows List.Perm never) (k : Key) (n i : Nat) (u : Table Column) :
    Yields Shows (forShards (fun i => inner.delete (s.shardRow k i)) i n) u fun _ w =>
      ∀ q c, w.get q c = if q ∈ (List.range' i n).map (s.shardRow k) then none else u.get q c := by
  induction n generalizing i u with
  | zero => exact yields_pure () fun q c => rfl
  | succ n ih =>
    refine ((serves.delete _ u).yields id).step ((ih (i + 1) _).mono fun _ w hw q c => ?_)
    rw [hw, Table.get_delete, List.range'_succ, List.map_cons]
    by_cases here : s.shardRow k i = q
    · rw [if_pos here, ite_self, if_pos (here ▸ List.mem_cons_self)]
    · rw [if_neg here]
      exact if_congr (by rw [List.mem_cons, or_iff_right (Ne.symm here)]) rfl rfl

theorem anyShard_hasKey (serves : inner.Serves Shows List.Perm never) (k : Key) (n i : Nat) (u : Table Column) :
    Yields Shows (anyShard (fun i => inner.hasKey (s.shardRow k i)) i n) u fun yes w =>
      yes = ((List.range' i n).map (s.shardRow k)).any u.hasKey ∧ w = u := by
  induction n generalizing i with
  | zero => exact yields_pure false ⟨rfl, rfl⟩
  | succ n ih =>
    refine ((serves.hasKey _ u).yields id).next ?_
    rw [List.range'_succ, List.map_cons, List.any_cons]
    cases u.hasKey (s.shardRow k i) with
    | true => exact yields_pure true ⟨rfl, rfl⟩
    | false => exact ih (i + 1)

theorem gather_values (serves : inner.Serves Shows List.Perm never) (k : Key) (n i : Nat) (acc : List Bytes)
    (u : Table Column) :
    Yields Shows (gather (fun i => inner.values (s.shardRow k i)) i acc n) u fun vs w =>
      vs.Perm (acc ++ ((List.range' i n).map (s.shardRow k)).flatMap u.values) ∧ w = u := by
  induction n generalizing i acc with
  | zero => exact yields_pure acc ⟨by simp, rfl⟩
  | succ n ih =>
    refine ((serves.values _ u).yields id).bind ?_
    rintro vs _ ⟨found, rfl⟩
    refine (ih (i + 1) (acc ++ vs)).mono ?_
    rintro ws _ ⟨all, rfl⟩
    refine ⟨all.trans ?_, rfl⟩
    rw [List.range'_succ, List.map_cons, List.flatMap_cons, List.append_assoc]
    exact (found.append_right _).append_left acc

/-! ## A sharded store as a store -/

/-- the table that a sharded store shows -/
def Shown (s : ShardSettings) (Shows : τ → Table Column → Prop) (st : τ) (t : Table Column) : Prop :=
  ∃ u, Shows st u ∧ s.Spread t u

variable (positive : s.shards ≠ 0) (mark : ∃ c ∈ s.delimiter.toList, c.isDigit = false)

include positive mark in
/-- **A sharded store serves the table that it spreads.** -/
theorem rows_serve (serves : inner.Serves Shows List.Perm never) :
    (rows s inner).Serves (Shown s Shows) List.Perm never where
  put k c v t := by
    refine (yields_behind fun u spread => ((serves.put (s.shardKey k c) c v u).yields id).mono ?_).tries
    rintro _ _ rfl
    exact ⟨_, spread.put k c v, rfl⟩
  get k c t := by
    refine (yields_behind fun u spread => ((serves.get (s.shardKey k c) c u).yields id).mono ?_).tries
    rintro _ _ ⟨rfl, rfl⟩
    exact ⟨t, spread, spread.cells k c, rfl⟩
  delete k t := by
    refine (yields_behind fun u spread => (forShards_delete serves k s.shards.toNat 0 u).mono ?_).tries
    intro _ w cells
    rw [← List.range_eq_range'] at cells
    exact ⟨_, spread.delete mark positive cells, rfl⟩
  hasKey k t := by
    refine (yields_behind fun u spread => (anyShard_hasKey serves k s.shards.toNat 0 u).mono ?_).tries
    rintro _ _ ⟨rfl, rfl⟩
    rw [← List.range_eq_range']
    exact ⟨t, spread, spread.hasKey_iff mark positive k, rfl⟩
  values k t := by
    refine (yields_behind fun u spread => (gather_values serves k s.shards.toNat 0 [] u).mono ?_).tries
    rintro vs _ ⟨all, rfl⟩
    rw [← List.range_eq_range', List.nil_append] at all
    exact ⟨t, spread, all.trans (spread.values_perm mark positive k), rfl⟩
  sync t := by
    refine (yields_behind fun u spread => ((serves.sync u).yields id).mono ?_).tries
    rintro _ _ rfl
    exact ⟨t, spread, rfl⟩

theorem rows_trim (trims : inner.Trims Shows never) : (rows s inner).Trims (Shown s Shows) never := by
  intro k c t
  refine (yields_behind fun u spread => ((trims (s.shardKey k c) c u).yields id).mono ?_).tries
  rintro _ _ rfl
  exact ⟨_, spread.deleteColumn k c, rfl⟩

include mark in
theorem rows_list (lists : inner.Lists Shows never) : (rows s inner).Lists (Shown s Shows) never := by
  intro t
  refine (yields_behind fun u spread => Yields.map (((lists u).yields id).mono ?_)).tries
  rintro names _ ⟨⟨_, found⟩, rfl⟩
  refine ⟨t, spread, ⟨nodup_eraseDups _, fun k => ?_⟩, rfl⟩
  rw [List.mem_eraseDups, List.mem_map, ← spread.mem_keys_iff mark]
  simp only [found]

/-- **Sharding is invisible.** Whatever the number of shards, the keys and the columns: a run of calls is answered as by the
plain table, and each physical row holds the columns of its shard. -/
theorem sharded_run_agrees (s : ShardSettings) (positive : s.shards ≠ 0)
    (mark : ∃ c ∈ s.delimiter.toList, c.isDigit = false) (width : Nat) (calls : List Call) :
    ∃ sharded plain u t, calls.mapM (rows s (Table.plainRows width)).call .empty = (.ok sharded, u) ∧
      calls.mapM (Table.plainRows width).call .empty = (.ok plain, t) ∧ List.Forall₂ Answer.Matches sharded plain ∧
      ∀ k i c, u.get (s.shardRow k i) c = if c.toNat % s.shards.toNat = i then t.get k c else none := by
  have whole : (Table.plainRows width).Serves Eq Eq never := Table.plainRows_serve
  have lists : (rows s (Table.plainRows width)).Lists _ never := rows_list mark Table.plainRows_list
  have serves := rows_serve positive mark (whole.scan_mono fun _ _ e => .of_eq e)
  have trims : (rows s (Table.plainRows width)).Trims _ never := rows_trim Table.plainRows_trim
  obtain ⟨plain, t, plainRun, shardedRun⟩ := serves.run_matches trims lists width calls .empty
  obtain ⟨sharded, u, _, ran, ⟨_, rfl, spread⟩, agree, rfl⟩ := shardedRun.run ⟨_, rfl, .empty⟩
  exact ⟨sharded, plain, _, _, ran, plainRun, agree, spread.get_shardRow mark⟩

/-- a delimiter that overlaps itself, between keys that begin and end with it: the row of `a` is deleted, that of `a#1#`
stays, though `a#1#` is also the beginning of the physical name `a#1#2` -/
theorem sharded_run_agrees_overlapping :
    let s : ShardSettings := { shards := 3, delimiter := "#1#" }
    let calls : List Call := [.put "a" 0 [1], .put "a#1#" 0 [2], .put "a#1#" 4 [3], .put "#1#1#" 5 [4], .delete "a",
      .hasKey "a", .values "a#1#", .keys]
    s.shards ≠ 0 ∧ (∃ c ∈ s.delimiter.toList, c.isDigit = false) ∧
      (calls.mapM (rows s (Table.plainRows 4)).call .empty).1 = .ok [.done, .done, .done, .done, .done, .flag false,
        .values [[2], [3]], .keys ["#1#1#", "a#1#"]] ∧
      ∃ sharded plain u t, calls.mapM (rows s (Table.plainRows 4)).call .empty = (.ok sharded, u) ∧
        calls.mapM (Table.plainRows 4).call .empty = (.ok plain, t) ∧ List.Forall₂ Answer.Matches sharded plain ∧
        ∀ k i c, u.get (s.shardRow k i) c = if c.toNat % s.shards.toNat = i then t.get k c else none := by
  intro s calls
  have positive : s.shards ≠ 0 := by decide
  have mark : ∃ c ∈ s.delimiter.toList, c.isDigit = false := ⟨'#', by decide, by decide⟩
  exact ⟨positive, mark, by decide +kernel, sharded_run_agrees s positive mark 4 calls⟩

end Sharded

end RowFiles
