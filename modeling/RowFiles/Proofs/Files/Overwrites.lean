/-
What writing leaves of a row, byte by byte, whatever cells the row has.

- `Layout.byte`: a byte of a row as it is read, and `Layout.read_eq_iff`: a stretch reads as a byte string just when each
  of its bytes does.
- `Layout.byte_put`: bytes put over a column change those bytes and no other.
- `Layout.byte_writeSpans`: nor do bytes written over their spans. So a write keeps all that lies below where it starts
  (`Layout.read_writeSpans_below`), and what is known up to there goes on with what is written
  (`Layout.read_writeSpans_append`).
-/
import RowFiles.Proofs.Files.Layout

namespace RowFiles.Layout

/-! ## Cells -/

theorem getD_pad (w : Nat) (cell : Bytes) (j : Nat) : (pad w cell).getD j 0 = cell.getD j 0 := by
  rw [pad, List.getD_eq_getElem?_getD, List.getD_eq_getElem?_getD]
  by_cases there : j < cell.length
  · rw [List.getElem?_append_left there]
  · rw [List.getElem?_append_right (Nat.not_lt.1 there), List.getElem?_eq_none (Nat.not_lt.1 there),
      List.getElem?_replicate]
    split_ifs
    · rfl
    · rfl

theorem le_length_pad (w : Nat) (cell : Bytes) : w ≤ (pad w cell).length := by
  rw [pad, List.length_append, List.length_replicate]
  omega

/-- bytes laid over a cell are read where they lie, and the cell's everywhere else -/
theorem getD_overlay {cell new : Bytes} {off : Nat} (there : off ≤ cell.length) (j : Nat) :
    (overlay cell off new).getD j 0 =
      if off ≤ j ∧ j < off + new.length then new.getD (j - off) 0 else cell.getD j 0 := by
  have start : (cell.take off).length = off := List.length_take_of_le there
  simp only [overlay, List.append_assoc, List.getD_eq_getElem?_getD]
  rcases Nat.lt_or_ge j off with before | from_
  · rw [if_neg (by omega), List.getElem?_append_left (by omega), List.getElem?_take_of_lt before]
  rw [List.getElem?_append_right (by omega), start]
  rcases Nat.lt_or_ge j (off + new.length) with inside | after
  · rw [if_pos ⟨from_, inside⟩, List.getElem?_append_left (by omega)]
  · have place : off + new.length + (j - off - new.length) = j := by omega
    rw [if_neg (by omega), List.getElem?_append_right (by omega), List.getElem?_drop, place]

/-! ## Rows -/

/-- byte `i` of a row as it is read, zero where the row has none -/
def byte (w : Nat) (t : Table Column) (k : Key) (i : Nat) : UInt8 :=
  ((t.get k (UInt64.ofNat (i / w))).getD []).getD (i % w) 0

section

variable {w : Nat} {t u : Table Column} {k : Key} {b : Bytes} {n pos : Nat}

theorem read_eq_bytes (hw : 0 < w) (t : Table Column) (k : Key) (pos len : Nat) :
    read w t k pos len = (List.range len).map fun i => byte w t k (pos + i) := read_eq_map hw t k pos len

/-- **A stretch reads as a byte string** just when each of its bytes does. -/
theorem read_eq_iff (hw : 0 < w) : read w t k pos b.length = b ↔ ∀ i < b.length, byte w t k (pos + i) = b.getD i 0 := by
  rw [read_eq_bytes hw]
  constructor
  · intro whole i hi
    have here := congrArg (fun l : Bytes => l.getD i 0) whole
    simpa [hi] using here
  · intro each
    refine List.ext_getElem (by simp) fun i hi hb => ?_
    simp only [List.getElem_map, List.getElem_range]
    rw [each i hb, List.getD_eq_getElem?_getD, List.getElem?_eq_getElem hb, Option.getD_some]

/-- what is read is decided by the bytes -/
theorem read_congr_bytes (hw : 0 < w) (same : ∀ i < n, byte w u k (pos + i) = byte w t k (pos + i)) :
    read w u k pos n = read w t k pos n := by
  rw [read_eq_bytes hw, read_eq_bytes hw]
  exact List.map_congr_left fun i hi => same i (List.mem_range.1 hi)

/-- where all bytes below some place are as they were, so is what is read there -/
theorem read_below {m : Nat} (hw : 0 < w) (below : n ≤ m) (same : ∀ i < m, byte w u k i = byte w t k i) :
    read w u k 0 n = read w t k 0 n := by
  refine read_congr_bytes hw fun i hi => ?_
  rw [Nat.zero_add]
  exact same i (Nat.lt_of_lt_of_le hi below)

/-- a byte that is read of a row of which the first bytes are known -/
theorem byte_of_whole (hw : 0 < w) (whole : read w t k 0 b.length = b) {i : Nat} (hi : i < b.length) :
    byte w t k i = b.getD i 0 := by
  have each := (read_eq_iff hw).1 whole i hi
  rwa [Nat.zero_add] at each

/-- **Bytes put over a column** change those bytes of the row and no other. -/
theorem byte_put (hw : 0 < w) (new : Bytes) (fits : pos % w + new.length ≤ w) (small : pos < UInt64.size) {i : Nat}
    (hi : i < UInt64.size) :
    byte w (t.put k (UInt64.ofNat (pos / w))
        (overlay (pad w ((t.get k (UInt64.ofNat (pos / w))).getD [])) (pos % w) new)) k i =
      if pos ≤ i ∧ i < pos + new.length then new.getD (i - pos) 0 else byte w t k i := by
  have here := Nat.div_add_mod pos w
  have there := Nat.div_add_mod i w
  have inside := Nat.mod_lt i hw
  rw [byte, Table.get_put]
  by_cases same : pos / w = i / w
  · have long : pos % w ≤ (pad w ((t.get k (UInt64.ofNat (pos / w))).getD [])).length :=
      Nat.le_trans (by omega) (le_length_pad w _)
    have places : (pos % w ≤ i % w ∧ i % w < pos % w + new.length) ↔ pos ≤ i ∧ i < pos + new.length := by
      rw [same] at here
      omega
    have offset : i % w - pos % w = i - pos := by
      rw [same] at here
      omega
    rw [if_pos ⟨rfl, by rw [same]⟩, Option.getD_some, getD_overlay long, getD_pad, offset, byte, same]
    simp only [places]
  · have columns : UInt64.ofNat (pos / w) ≠ UInt64.ofNat (i / w) := fun e => same <| by
      have number : (UInt64.ofNat (pos / w)).toNat = pos / w :=
        UInt64.toNat_ofNat_of_lt (Nat.lt_of_le_of_lt (Nat.div_le_self pos w) small)
      have number' : (UInt64.ofNat (i / w)).toNat = i / w :=
        UInt64.toNat_ofNat_of_lt (Nat.lt_of_le_of_lt (Nat.div_le_self i w) hi)
      rw [← number, e, number']
    have outside : ¬ (pos ≤ i ∧ i < pos + new.length) := fun within => same <| by
      refine (Nat.div_eq_of_lt_le ?_ ?_).symm
      · rw [Nat.mul_comm]
        omega
      · rw [Nat.succ_mul, Nat.mul_comm]
        omega
    rw [if_neg fun e => columns e.2, if_neg outside, byte]

/-- **Bytes written over their spans** change those bytes of the row and no other. -/
theorem byte_writeSpans (hw : 0 < w) (pos : Nat) (buf : Bytes) (small : pos + buf.length ≤ UInt64.size) {i : Nat}
    (hi : i < UInt64.size) (t : Table Column) :
    byte w (writeSpans w k (spans w pos buf.length) buf t) k i =
      if pos ≤ i ∧ i < pos + buf.length then buf.getD (i - pos) 0 else byte w t k i := by
  obtain ⟨len, hlen⟩ : ∃ len, len = buf.length := ⟨_, rfl⟩
  rw [← hlen] at small ⊢
  induction pos, len using stretch_induction hw generalizing buf t with
  | nil pos =>
    rw [spans_zero, writeSpans, if_neg (by omega)]
  | cons pos len some ih =>
    have le := run_le (w := w) pos len
    have taken : (buf.take (run w pos len)).length = run w pos len := by
      rw [List.length_take]
      omega
    have first := byte_put (t := t) (k := k) hw (buf.take (run w pos len))
      (by rw [taken]; exact offset_add_run_le hw pos len) (by omega : pos < UInt64.size) hi
    rw [taken] at first
    rw [spans_cons hw pos some, writeSpans, ih (buf.drop (run w pos len)) _ (by omega) (by rw [List.length_drop, hlen])]
    simp only [Span.columnNumber, first, List.getD_eq_getElem?_getD, List.getElem?_drop]
    rcases Nat.lt_or_ge i (pos + run w pos len) with early | later
    · -- the byte lies in the first column, or before it
      rw [if_neg (by omega)]
      by_cases inside : pos ≤ i
      · rw [if_pos ⟨inside, early⟩, if_pos ⟨inside, by omega⟩, List.getElem?_take_of_lt (by omega)]
      · rw [if_neg fun h => inside h.1, if_neg fun h => inside h.1]
    · have place : run w pos len + (i - (pos + run w pos len)) = i - pos := by omega
      rw [if_neg (by omega : ¬ (pos ≤ i ∧ i < pos + run w pos len)), place]
      exact if_congr (by omega) rfl rfl

/-- a write leaves all that lies below where it starts -/
theorem read_writeSpans_below (hw : 0 < w) {pos : Nat} (below : n ≤ pos) (buf : Bytes)
    (small : pos + buf.length ≤ UInt64.size) (t : Table Column) :
    read w (writeSpans w k (spans w pos buf.length) buf t) k 0 n = read w t k 0 n := by
  refine read_below hw below fun i hi => ?_
  rw [byte_writeSpans hw pos buf small (by omega), if_neg (by omega)]

/-- what is known of a row goes on with what is written at its end, whatever the row has beyond -/
theorem read_writeSpans_append (hw : 0 < w) (whole : read w t k 0 b.length = b) (buf : Bytes)
    (small : b.length + buf.length ≤ UInt64.size) :
    read w (writeSpans w k (spans w b.length buf.length) buf t) k 0 (b ++ buf).length = b ++ buf := by
  refine (read_eq_iff hw).2 fun i hi => ?_
  rw [List.length_append] at hi
  rw [Nat.zero_add, byte_writeSpans hw b.length buf small (by omega)]
  split_ifs with written
  · rw [List.getD_eq_getElem?_getD, List.getD_eq_getElem?_getD, List.getElem?_append_right written.1]
  · have before : i < b.length := by omega
    rw [byte_of_whole hw whole before, List.getD_eq_getElem?_getD, List.getD_eq_getElem?_getD,
      List.getElem?_append_left before]

end

end RowFiles.Layout
