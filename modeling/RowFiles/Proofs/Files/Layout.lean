/-
How a byte string lies over a row.

- `Layout.Holds`: column `q` of the row has the `w` bytes from `q * w` on, padded with zeros, as far as there are bytes.
- `Layout.spans_cons`: a stretch of bytes is cut at the end of its first column, and then like the rest of it.
- `Layout.stops_iff`: behind each span of a stretch there is a position of 64 bits if there is one behind the stretch.
- `Layout.Holds.writeSpans`: writing a stretch over its spans at the end of the bytes appends it.
- `Layout.read_eq_map`: what lies in the spans of a stretch, put together, is read byte by byte from the columns.
- `Layout.Holds.pieces`: in a row that holds bytes it is the stretch of these.
- `Layout.Holds.canonical`: the row holds no other columns, and so the bytes decide it.
-/
import Mathlib.Tactic.SplitIfs
import RowFiles.Files.Layout
import RowFiles.Proofs.Store.Tables

namespace RowFiles

section

variable {m : Type → Type} [Monad m] [MonadExceptOf Error m] {n : Nat}

theorem checkWord_of_lt (fits : n < UInt64.size) : checkWord n = (pure () : m Unit) := if_pos fits

theorem checkWord_of_not_lt (unfit : ¬ n < UInt64.size) : checkWord n = (throw .tooLarge : m Unit) := if_neg unfit

end

namespace Layout

/-! ## Slices -/

/-- a slice is read byte by byte, zeros past the end -/
theorem slice_eq_map (b : Bytes) (p n : Nat) : slice b p n = (List.range n).map fun i => b.getD (p + i) 0 := by
  refine List.ext_getElem ?_ fun i h₁ h₂ => ?_
  · simp only [slice, List.length_append, List.length_take, List.length_drop, List.length_replicate, List.length_map,
      List.length_range]
    omega
  have hi : i < n := by simpa using h₂
  simp only [List.getElem_map, List.getElem_range, slice, List.getD_eq_getElem?_getD]
  by_cases h : p + i < b.length
  · have there : i < ((b.drop p).take n).length := by rw [List.length_take, List.length_drop]; omega
    rw [List.getElem_append_left there, List.getElem_take, List.getElem_drop, List.getElem?_eq_getElem h]
    rfl
  · have past : ((b.drop p).take n).length ≤ i := by rw [List.length_take, List.length_drop]; omega
    rw [List.getElem_append_right past, List.getElem_replicate, List.getElem?_eq_none (by omega)]
    rfl

@[simp] theorem length_slice (b : Bytes) (p n : Nat) : (slice b p n).length = n := by simp [slice_eq_map]

theorem getD_slice (b : Bytes) (p n i : Nat) : (slice b p n).getD i 0 = if i < n then b.getD (p + i) 0 else 0 := by
  rw [slice_eq_map, List.getD_eq_getElem?_getD, List.getElem?_map]
  split_ifs with h
  · rw [List.getElem?_range h]
    rfl
  · rw [List.getElem?_eq_none (by simpa using h)]
    rfl

theorem slice_congr {b c : Bytes} {p q n : Nat} (h : ∀ i < n, b.getD (p + i) 0 = c.getD (q + i) 0) :
    slice b p n = slice c q n := by
  rw [slice_eq_map, slice_eq_map]
  exact List.map_congr_left fun i hi => h i (List.mem_range.1 hi)

theorem slice_add (b : Bytes) (p n m : Nat) : slice b p (n + m) = slice b p n ++ slice b (p + n) m := by
  rw [slice_eq_map, slice_eq_map, slice_eq_map, List.range_add, List.map_append, List.map_map]
  refine congrArg _ (List.map_congr_left fun i _ => ?_)
  rw [Function.comp_apply, Nat.add_assoc]

theorem slice_slice {b : Bytes} {p n off size : Nat} (h : off + size ≤ n) :
    slice (slice b p n) off size = slice b (p + off) size :=
  slice_congr fun i hi => by rw [getD_slice, if_pos (by omega), Nat.add_assoc]

theorem slice_past {b : Bytes} {p : Nat} (h : b.length ≤ p) (n : Nat) : slice b p n = List.replicate n 0 := by
  rw [slice, List.drop_of_length_le h]
  simp

/-- a slice within a prefix -/
theorem slice_append {b c : Bytes} {p n : Nat} (h : p + n ≤ b.length) : slice (b ++ c) p n = slice b p n :=
  slice_congr fun i hi => by
    rw [List.getD_eq_getElem?_getD, List.getD_eq_getElem?_getD, List.getElem?_append_left (by omega)]

theorem slice_within {b : Bytes} {p n : Nat} (h : p + n ≤ b.length) : slice b p n = (b.drop p).take n := by
  have short : n - ((b.drop p).take n).length = 0 := by
    rw [List.length_take, List.length_drop]
    omega
  rw [slice, short, List.replicate_zero, List.append_nil]

theorem slice_all (b : Bytes) (n : Nat) : slice b 0 (b.length + n) = b ++ List.replicate n 0 := by
  have all : (b.drop 0).take (b.length + n) = b := List.take_of_length_le (by simp)
  rw [slice, all, Nat.add_sub_cancel_left]

/-- the columns of a byte string, put together -/
theorem flatten_columns (b : Bytes) (w n : Nat) :
    ((List.range n).map fun q => slice b (q * w) w).flatten = slice b 0 (n * w) := by
  induction n with
  | zero => simp [slice]
  | succ n ih => rw [List.range_succ, List.map_append, List.flatten_append, ih, Nat.succ_mul, slice_add]; simp

/-- a column that begins with the last bytes takes more of them -/
theorem overlay_slice {b new : Bytes} {p off w : Nat} (hb : b.length = p + off) (fits : off + new.length ≤ w) :
    overlay (slice b p w) off new = slice (b ++ new) p w := by
  have start : (slice b p w).take off = slice b p off := by
    obtain ⟨rest, rfl⟩ := Nat.exists_eq_add_of_le (Nat.le_trans (Nat.le_add_right off new.length) fits)
    rw [slice_add, List.take_left' (length_slice _ _ _)]
  have stop : (slice b p w).drop (off + new.length) = List.replicate (w - (off + new.length)) 0 := by
    obtain ⟨rest, rfl⟩ := Nat.exists_eq_add_of_le fits
    rw [slice_add, List.drop_left' (length_slice _ _ _), slice_past (by omega), Nat.add_sub_cancel_left]
  obtain ⟨rest, rfl⟩ := Nat.exists_eq_add_of_le fits
  have old : slice (b ++ new) p off = slice b p off := slice_append (by omega)
  have added : slice (b ++ new) (p + off) new.length = new := by
    rw [slice, List.drop_left' (by omega)]
    simp
  have past : slice (b ++ new) (p + (off + new.length)) rest = List.replicate rest 0 :=
    slice_past (by rw [List.length_append]; omega) rest
  rw [overlay, start, stop, slice_add, slice_add, old, added, past, Nat.add_sub_cancel_left]

/-! ## Spans -/

section Spans

variable {w : Nat}

@[simp] theorem spans_zero (pos : Nat) : spans w pos 0 = [] := by simp [spans]

/-- how many bytes from `pos` on lie in the column of `pos` -/
def run (w pos len : Nat) : Nat := min (w - pos % w) len

theorem run_le (pos len : Nat) : run w pos len ≤ len := Nat.min_le_right _ _

theorem run_pos (hw : 0 < w) (pos : Nat) {len : Nat} (hlen : 0 < len) : 0 < run w pos len := by
  have := Nat.mod_lt pos hw
  simp only [run]
  omega

theorem offset_add_run_le (hw : 0 < w) (pos len : Nat) : pos % w + run w pos len ≤ w := by
  have := Nat.mod_lt pos hw
  simp only [run]
  omega

/-- **A stretch of bytes is cut at the end of its first column**, and then like the rest of it. -/
theorem spans_cons (hw : 0 < w) (pos : Nat) {len : Nat} (hlen : 0 < len) :
    spans w pos len = ⟨pos / w, pos % w, run w pos len⟩ :: spans w (pos + run w pos len) (len - run w pos len) := by
  have split : w * (pos / w) + pos % w = pos := Nat.div_add_mod pos w
  have inside : pos % w < w := Nat.mod_lt pos hw
  have here : pos / w * w = w * (pos / w) := Nat.mul_comm _ _
  have next : (pos / w + 1) * w = pos / w * w + w := Nat.succ_mul _ _
  have later : pos / w ≤ (pos + len - 1) / w := Nat.div_le_div_right (by omega)
  rw [spans, if_neg (by omega), Nat.succ_sub later, List.range_succ_eq_map, List.map_cons, List.map_map]
  congr 1
  · simp only [Nat.add_zero, Span.mk.injEq, true_and, run]
    omega
  by_cases short : len ≤ w - pos % w
  · -- the stretch ends in its first column
    have whole : run w pos len = len := Nat.min_eq_right short
    have last : (pos + len - 1) / w = pos / w := Nat.div_eq_of_lt_le (by omega) (by omega)
    rw [whole, Nat.sub_self, spans_zero, last, Nat.sub_self]
    rfl
  · have part : run w pos len = w - pos % w := Nat.min_eq_left (by omega)
    have start : pos + (w - pos % w) = (pos / w + 1) * w := by omega
    have column : (pos / w + 1) * w / w = pos / w + 1 := Nat.mul_div_cancel _ hw
    have stop : (pos / w + 1) * w + (len - (w - pos % w)) = pos + len := by omega
    rw [part, start, spans, if_neg (by omega), column, stop, Nat.succ_sub_succ]
    refine List.map_congr_left fun i _ => ?_
    have beyond : (pos / w + 1) * w ≤ (pos / w + 1 + i) * w := Nat.mul_le_mul_right w (by omega)
    have same : pos / w + (i + 1) = pos / w + 1 + i := by omega
    simp only [Function.comp_apply, Nat.succ_eq_add_one, same, Nat.max_eq_right beyond]
    rw [Nat.max_eq_right (by omega)]

theorem spans_ne_nil (hw : 0 < w) (pos : Nat) {len : Nat} (hlen : 0 < len) : spans w pos len ≠ [] := by
  rw [spans_cons hw pos hlen]
  exact List.cons_ne_nil _ _

/-- a stretch is empty, or it goes on after the bytes in its first column -/
theorem stretch_induction (hw : 0 < w) {P : Nat → Nat → Prop} (nil : ∀ pos, P pos 0)
    (cons : ∀ pos len, 0 < len → P (pos + run w pos len) (len - run w pos len) → P pos len) (pos len : Nat) :
    P pos len := by
  induction len using Nat.strongRecOn generalizing pos with
  | _ len ih =>
    rcases Nat.eq_zero_or_pos len with rfl | hlen
    · exact nil pos
    · have := run_pos hw pos hlen
      exact cons pos len hlen (ih _ (by omega) _)

/-- a span stays within its column and within the stretch -/
theorem mem_spans (hw : 0 < w) {pos len : Nat} {s : Span} (hs : s ∈ spans w pos len) :
    s.offset + s.size ≤ w ∧ s.column * w < pos + len := by
  induction pos, len using stretch_induction hw with
  | nil pos => cases spans_zero (w := w) pos ▸ hs
  | cons pos len hlen ih =>
    rw [spans_cons hw pos hlen] at hs
    rcases List.mem_cons.1 hs with rfl | hs
    · have start := Nat.div_mul_le_self pos w
      exact ⟨offset_add_run_le hw pos len, Nat.lt_of_le_of_lt start (by omega)⟩
    · have := run_le (w := w) pos len
      obtain ⟨fits, column⟩ := ih hs
      exact ⟨fits, by omega⟩

/-- no span of a stretch stops behind it -/
theorem stop_le {pos len : Nat} {s : Span} (hs : s ∈ spans w pos len) : s.stop w ≤ pos + len := by
  rw [spans] at hs
  split_ifs at hs
  · cases hs
  obtain ⟨i, hi, rfl⟩ := List.mem_map.1 hs
  have last : pos / w + i ≤ (pos + len - 1) / w := by
    have := List.mem_range.1 hi
    omega
  have begins := Nat.le_trans (Nat.mul_le_mul_right w last) (Nat.div_mul_le_self ..)
  rw [Span.stop]
  dsimp only
  omega

/-- behind the bytes of a stretch, if there are any, is a position of 64 bits -/
def InRange (pos len : Nat) : Prop := len = 0 ∨ pos + len < UInt64.size

instance (pos len : Nat) : Decidable (InRange pos len) := inferInstanceAs (Decidable (_ ∨ _))

/-- **Behind each span of a stretch** is a position if there is one behind the last. -/
theorem stops_iff (hw : 0 < w) (pos len : Nat) :
    (∀ s ∈ spans w pos len, s.stop w < UInt64.size) ↔ InRange pos len := by
  induction pos, len using stretch_induction hw with
  | nil pos => simp [InRange]
  | cons pos len hlen ih =>
    have stop : Span.stop w ⟨pos / w, pos % w, run w pos len⟩ = pos + run w pos len := by
      rw [Span.stop, Nat.mul_comm, Nat.div_add_mod]
    have le := run_le (w := w) pos len
    rw [spans_cons hw pos hlen, List.forall_mem_cons, ih, stop, InRange, InRange]
    omega

/-- the parts of a byte string that its spans stand for are the stretch -/
theorem flatten_spans (hw : 0 < w) (b : Bytes) (pos len : Nat) :
    ((spans w pos len).map fun s => slice b (s.column * w + s.offset) s.size).flatten = slice b pos len := by
  induction pos, len using stretch_induction hw with
  | nil pos => simp [slice]
  | cons pos len hlen ih =>
    have start : pos / w * w + pos % w = pos := by rw [Nat.mul_comm, Nat.div_add_mod]
    have whole : run w pos len + (len - run w pos len) = len := Nat.add_sub_cancel' (run_le pos len)
    rw [spans_cons hw pos hlen, List.map_cons, List.flatten_cons, ih, start, ← slice_add, whole]

end Spans

/-! ## Rows -/

/-- the row holds the bytes: each column begun by them, and no other -/
def Holds (w : Nat) (t : Table Column) (k : Key) (b : Bytes) : Prop :=
  ∀ c : Column, t.get k c = if c.toNat * w < b.length then some (slice b (c.toNat * w) w) else none

/-- a stretch as it is read from a row, span by span -/
def read (w : Nat) (t : Table Column) (k : Key) (pos len : Nat) : Bytes :=
  ((spans w pos len).map fun s => slice ((t.get k s.columnNumber).getD []) s.offset s.size).flatten

/-- what writing bytes over spans makes of a table -/
def writeSpans (w : Nat) (k : Key) : List Span → Bytes → Table Column → Table Column
  | [], _, t => t
  | s :: spans, buf, t =>
    writeSpans w k spans (buf.drop s.size) (t.put k s.columnNumber
      (overlay (pad w ((t.get k s.columnNumber).getD [])) s.offset (buf.take s.size)))

/-! ### Stretches of any row -/

/-- **A stretch is read byte by byte** from the columns, whatever the row is. -/
theorem read_eq_map {w : Nat} (hw : 0 < w) (t : Table Column) (k : Key) (pos len : Nat) :
    read w t k pos len = (List.range len).map fun i =>
      ((t.get k (UInt64.ofNat ((pos + i) / w))).getD []).getD ((pos + i) % w) 0 := by
  induction pos, len using stretch_induction hw with
  | nil pos => simp [read]
  | cons pos len hlen ih =>
    have le := run_le (w := w) pos len
    have whole : len = run w pos len + (len - run w pos len) := (Nat.add_sub_cancel' le).symm
    have start : pos / w * w + pos % w = pos := by rw [Nat.mul_comm, Nat.div_add_mod]
    have step : read w t k pos len = slice ((t.get k (UInt64.ofNat (pos / w))).getD []) (pos % w) (run w pos len) ++
        read w t k (pos + run w pos len) (len - run w pos len) := by
      rw [read, spans_cons hw pos hlen, List.map_cons, List.flatten_cons]
      rfl
    rw [step, ih, slice_eq_map]
    conv_rhs => rw [whole, List.range_add, List.map_append, List.map_map]
    congr 1
    · refine List.map_congr_left fun i hi => ?_
      have inside := offset_add_run_le hw pos len
      have here := List.mem_range.1 hi
      have column : (pos + i) / w = pos / w := Nat.div_eq_of_lt_le (by omega) (by rw [Nat.succ_mul]; omega)
      have offset : (pos + i) % w = pos % w + i := by
        have := Nat.div_add_mod (pos + i) w
        rw [column, Nat.mul_comm] at this
        omega
      rw [column, offset]
    · refine List.map_congr_left fun i _ => ?_
      rw [Function.comp_apply, Nat.add_assoc]

@[simp] theorem length_read {w : Nat} (hw : 0 < w) (t : Table Column) (k : Key) (pos len : Nat) :
    (read w t k pos len).length = len := by simp [read_eq_map hw]

theorem read_congr {w : Nat} {t u : Table Column} {k l : Key} (same : ∀ c, t.get k c = u.get l c) (pos len : Nat) :
    read w t k pos len = read w u l pos len := by simp only [read, same]

/-- a stretch as it can be read: a buffer has to take it, and behind it there has to be a position -/
def stretch (w : Nat) (t : Table Column) (k : Key) (pos len : Nat) : Except Error Bytes :=
  if len ≤ longestBuffer ∧ InRange pos len then .ok (read w t k pos len) else .error .tooLarge

section

variable {w : Nat} (t : Table Column) (k : Key) {pos len : Nat}

theorem stretch_of_fits (short : len ≤ longestBuffer) (within : InRange pos len) :
    stretch w t k pos len = .ok (read w t k pos len) := if_pos ⟨short, within⟩

theorem stretch_refused (unfit : ¬ (len ≤ longestBuffer ∧ InRange pos len)) : stretch w t k pos len = .error .tooLarge :=
  if_neg unfit

/-- a stretch that can be read is the row's -/
theorem read_of_stretch {t : Table Column} {k : Key} {b : Bytes} (told : stretch w t k pos len = .ok b) :
    read w t k pos len = b := by
  rw [stretch] at told
  split_ifs at told
  exact Except.ok.inj told

theorem stretch_congr {t u : Table Column} {k l : Key} (same : ∀ c, t.get k c = u.get l c) (pos len : Nat) :
    stretch w t k pos len = stretch w u l pos len := by rw [stretch, stretch, read_congr same]

end

/-- as many zeros -/
def zeros (n : Nat) : Bytes := List.replicate n 0

@[simp] theorem length_zeros (n : Nat) : (zeros n).length = n := List.length_replicate

/-- a row without cells reads as zeros -/
theorem read_blank {w : Nat} (hw : 0 < w) {t : Table Column} {k : Key} (none : ∀ c, t.get k c = none) (pos len : Nat) :
    read w t k pos len = zeros len := by
  rw [zeros]
  rw [read_eq_map hw]
  simp [none]

theorem read_add {w : Nat} (hw : 0 < w) (t : Table Column) (k : Key) (pos n m : Nat) :
    read w t k pos (n + m) = read w t k pos n ++ read w t k (pos + n) m := by
  rw [read_eq_map hw, read_eq_map hw, read_eq_map hw, List.range_add, List.map_append, List.map_map]
  refine congrArg _ (List.map_congr_left fun i _ => ?_)
  rw [Function.comp_apply, Nat.add_assoc]

/-- a stretch of a longer one -/
theorem read_within {w : Nat} (hw : 0 < w) (t : Table Column) (k : Key) {pos off n len : Nat} (h : off + n ≤ len) :
    read w t k (pos + off) n = ((read w t k pos len).drop off).take n := by
  obtain ⟨m, rfl⟩ := Nat.exists_eq_add_of_le h
  rw [read_add hw, read_add hw, List.append_assoc, List.drop_left' (length_read hw ..), List.take_left' (length_read hw ..)]

/-- a stretch of a row whose first bytes are known -/
theorem read_of_whole {w : Nat} (hw : 0 < w) {t : Table Column} {k : Key} {b : Bytes} (whole : read w t k 0 b.length = b)
    {off n : Nat} (within : off + n ≤ b.length) : read w t k off n = slice b off n := by
  have stretch : read w t k (0 + off) n = ((read w t k 0 b.length).drop off).take n := read_within hw t k within
  rwa [whole, Nat.zero_add, ← slice_within within] at stretch

/-- a stretch of which each byte is as in a byte string -/
theorem read_eq_slice {w : Nat} (hw : 0 < w) {t : Table Column} {k : Key} {b : Bytes} {pos n : Nat}
    (each : ∀ i < n, read w t k (pos + i) 1 = slice b (pos + i) 1) : read w t k pos n = slice b pos n := by
  induction n with
  | zero => simp [read, slice]
  | succ n ih => rw [read_add hw, slice_add, ih fun i hi => each i (by omega), each n (by omega)]

namespace Holds

variable {w : Nat} {t : Table Column} {k : Key} {b : Bytes}

theorem empty (none : ∀ c, t.get k c = none) : Holds w t k [] := fun c => by
  rw [none]
  exact (if_neg (Nat.not_lt_zero _)).symm

theorem congr (h : Holds w t k b) {u : Table Column} {l : Key} (same : ∀ c, u.get l c = t.get k c) : Holds w u l b :=
  fun c => (same c).trans (h c)

/-- a column as it reads, whether it is there or not -/
theorem slice_column (h : Holds w t k b) (c : Column) {off size : Nat} (fits : off + size ≤ w) :
    slice ((t.get k c).getD []) off size = slice b (c.toNat * w + off) size := by
  rw [h c]
  split_ifs with begun
  · exact slice_slice fits
  · rw [Option.getD_none, slice_past (Nat.zero_le _), slice_past (by omega)]

/-- a column as it is written over -/
theorem pad_column (h : Holds w t k b) (c : Column) : pad w ((t.get k c).getD []) = slice b (c.toNat * w) w := by
  rw [h c]
  split_ifs with begun
  · simp [pad]
  · rw [slice_past (by omega)]
    simp [pad]

/-- bytes put at the end of the last column are appended -/
theorem put (h : Holds w t k b) {new : Bytes} (some : 0 < new.length) (fits : b.length % w + new.length ≤ w)
    (small : b.length / w < UInt64.size) :
    Holds w (t.put k (UInt64.ofNat (b.length / w))
      (overlay (pad w ((t.get k (UInt64.ofNat (b.length / w))).getD [])) (b.length % w) new)) k (b ++ new) := by
  have number : (UInt64.ofNat (b.length / w)).toNat = b.length / w := UInt64.toNat_ofNat_of_lt small
  have total : b.length = b.length / w * w + b.length % w := by rw [Nat.mul_comm, Nat.div_add_mod]
  intro c
  rw [Table.get_put, h.pad_column, number, overlay_slice total fits, List.length_append]
  by_cases here : UInt64.ofNat (b.length / w) = c
  · rw [if_pos ⟨rfl, here⟩, ← here, number, if_pos (by omega)]
  rw [if_neg fun e => here e.2, h c]
  have other : c.toNat ≠ b.length / w := fun e => here (by rw [← e, UInt64.ofNat_toNat])
  rcases Nat.lt_or_gt_of_ne other with before | after
  · have full : (c.toNat + 1) * w ≤ b.length / w * w := Nat.mul_le_mul_right w before
    rw [Nat.succ_mul] at full
    rw [if_pos (by omega), if_pos (by omega), slice_append (by omega)]
  · have beyond : (b.length / w + 1) * w ≤ c.toNat * w := Nat.mul_le_mul_right w after
    rw [Nat.succ_mul] at beyond
    rw [if_neg (by omega), if_neg (by omega)]

/-- **Bytes written over their spans at the end are appended.** -/
theorem writeSpans (hw : 0 < w) (h : Holds w t k b) (buf : Bytes) (small : b.length + buf.length ≤ UInt64.size) :
    Holds w (writeSpans w k (spans w b.length buf.length) buf t) k (b ++ buf) := by
  obtain ⟨pos, hpos⟩ : ∃ pos, pos = b.length := ⟨_, rfl⟩
  obtain ⟨len, hlen⟩ : ∃ len, len = buf.length := ⟨_, rfl⟩
  rw [← hpos, ← hlen]
  induction pos, len using stretch_induction hw generalizing b buf t with
  | nil pos =>
    rw [List.eq_nil_of_length_eq_zero hlen.symm, List.append_nil, spans_zero]
    exact h
  | cons pos len some ih =>
    have le := run_le (w := w) pos len
    have taken : (buf.take (run w pos len)).length = run w pos len := by
      rw [List.length_take]
      omega
    have first : Holds w (t.put k (UInt64.ofNat (pos / w))
        (overlay (pad w ((t.get k (UInt64.ofNat (pos / w))).getD [])) (pos % w) (buf.take (run w pos len)))) k
        (b ++ buf.take (run w pos len)) := by
      have := Nat.div_le_self b.length w
      rw [hpos]
      refine h.put ?_ ?_ (by omega)
      · rw [← hpos, taken]
        exact run_pos hw pos some
      · rw [← hpos, taken]
        exact offset_add_run_le hw pos len
    have rest := ih first (buf.drop (run w pos len)) (by rw [List.length_append, List.length_drop, taken]; omega)
      (by rw [List.length_append, taken, hpos])
      (by rw [List.length_drop, hlen])
    rw [List.append_assoc, List.take_append_drop] at rest
    rw [spans_cons hw pos some, Layout.writeSpans]
    exact rest

/-- what is read over the spans of a stretch, put together, is the stretch -/
theorem pieces (hw : 0 < w) (h : Holds w t k b) {pos len : Nat} (small : pos + len ≤ UInt64.size) :
    read w t k pos len = slice b pos len := by
  rw [read, ← flatten_spans hw]
  refine congrArg _ (List.map_congr_left fun s hs => ?_)
  obtain ⟨fits, column⟩ := mem_spans hw hs
  have begins := Nat.le_mul_of_pos_right s.column hw
  have number : (UInt64.ofNat s.column).toNat = s.column :=
    UInt64.toNat_ofNat_of_lt (Nat.lt_of_le_of_lt begins (Nat.lt_of_lt_of_le column small))
  rw [h.slice_column _ fits, Span.columnNumber, number]

/-- **The row of a byte string** is the list of its columns, as many as the bytes begin. -/
theorem row (hw : 0 < w) (h : Holds w t k b) (small : b.length ≤ UInt64.size) :
    t.row k = (List.range ((b.length + w - 1) / w)).map fun q => (UInt64.ofNat q, slice b (q * w) w) := by
  have begun : ∀ q, q < (b.length + w - 1) / w ↔ q * w < b.length := fun q => by
    rw [Nat.lt_div_iff_mul_lt hw]
    omega
  have number : ∀ q, q < (b.length + w - 1) / w → (UInt64.ofNat q).toNat = q := fun q hq => by
    have begins := Nat.le_mul_of_pos_right q hw
    exact UInt64.toNat_ofNat_of_lt (Nat.lt_of_le_of_lt begins (Nat.lt_of_lt_of_le ((begun q).1 hq) small))
  refine Table.row_eq ?_ fun c v => ?_
  · rw [List.pairwise_map]
    refine List.Pairwise.imp_of_mem (fun {p q} hp hq less => ?_) List.pairwise_lt_range
    rw [Std.compare_eq_lt, UInt64.lt_iff_toNat_lt, number p (List.mem_range.1 hp), number q (List.mem_range.1 hq)]
    exact less
  · rw [h c, List.mem_map]
    constructor
    · intro hu
      obtain ⟨q, hq, e⟩ := hu
      rw [List.mem_range] at hq
      cases e
      rw [number q hq, if_pos ((begun q).1 hq)]
    · intro e
      split_ifs at e with hc
      cases e
      refine ⟨c.toNat, List.mem_range.2 ((begun _).2 hc), ?_⟩
      rw [UInt64.ofNat_toNat]

end Holds

/-- the one row that stands for a byte string: as many columns as it begins, all full, the last one padded -/
structure Canonical (w : Nat) (t : Table Column) (k : Key) (b : Bytes) : Prop where
  row : t.row k = (List.range ((b.length + w - 1) / w)).map fun q => (UInt64.ofNat q, slice b (q * w) w)
  columns : t.columns k = (List.range ((b.length + w - 1) / w)).map UInt64.ofNat
  full : ∀ cell ∈ t.values k, cell.length = w
  padded : ∃ n < w, (t.values k).flatten = b ++ List.replicate n 0

/-- a row that holds bytes is their canonical one -/
theorem Holds.canonical {w : Nat} {t : Table Column} {k : Key} {b : Bytes} (hw : 0 < w) (h : Holds w t k b)
    (small : b.length ≤ UInt64.size) : Canonical w t k b := by
  have row := h.row hw small
  have values : t.values k = (List.range ((b.length + w - 1) / w)).map fun q => slice b (q * w) w := by
    rw [Table.values, row, List.map_map]
    rfl
  refine ⟨row, ?_, fun cell hc => ?_, (b.length + w - 1) / w * w - b.length, ?_, ?_⟩
  · rw [Table.columns, row, List.map_map]
    rfl
  · rw [values, List.mem_map] at hc
    obtain ⟨q, _, rfl⟩ := hc
    exact length_slice b _ w
  · have := Nat.div_mul_le_self (b.length + w - 1) w
    omega
  · have whole : (b.length + w - 1) / w * w = b.length + ((b.length + w - 1) / w * w - b.length) := by
      have := Nat.div_add_mod (b.length + w - 1) w
      have := Nat.mod_lt (b.length + w - 1) hw
      have := Nat.mul_comm w ((b.length + w - 1) / w)
      omega
    rw [values, flatten_columns, whole, slice_all, Nat.add_sub_cancel_left]

end Layout

end RowFiles
