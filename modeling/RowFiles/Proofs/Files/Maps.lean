/-
Directories as maps of names to byte strings.

`Plan.mapped` says what each step does to the maps: a session appends, a deletion removes, a copy replaces. The stocks of a
site tell its maps (`Stock.Tells`): a length for each name that is there, and rows that hold the bytes, and no others.

- `Plan.Tells.step`: a step that asks for nothing too large has the outcome that the maps give it, and leaves stocks that
  tell the maps after it.
- `Plan.play_mapped`: so has every step of a run from a new site.
- `Plan.play_mapped_too_wide`: this fails for columns of more bytes than a buffer can have.
-/
import RowFiles.Proofs.Files.SiteRuns

namespace RowFiles

/-- the bytes of each file that is there -/
abbrev Contents := Std.ExtTreeMap Key Bytes compare

/-- the bytes of a file that is there -/
def Contents.find (m : Contents) (name : Key) : Except Error Bytes :=
  match m[name]? with
  | some b => .ok b
  | none => .error (.notFound name)

/-- the maps after a file with the bytes `b` is moved over another -/
def Contents.moved (M : Nat → Contents) (i : Nat) (src : Key) (j : Nat) (dst : Key) (b : Bytes) : Nat → Contents :=
  let N := Function.update M j ((M j).insert dst b)
  Function.update N i ((N i).erase src)

section Moved

variable (M : Nat → Contents) (i : Nat) (src : Key) (j : Nat) (dst : Key) (b : Bytes) (m : Nat) (k : Key)

theorem Contents.getElem?_moved : (moved M i src j dst b m)[k]? =
    if i = m ∧ src = k then none else if j = m ∧ dst = k then some b else (M m)[k]? := by
  unfold moved
  have replaced (m : Nat) : (Function.update M j ((M j).insert dst b) m)[k]? =
      if j = m ∧ dst = k then some b else (M m)[k]? := by
    by_cases here : j = m
    · subst here
      simp [Std.ExtTreeMap.getElem?_insert]
    · simp [here, Function.update_of_ne (Ne.symm here)]
  by_cases here : i = m
  · subst here
    simp [Std.ExtTreeMap.getElem?_erase, replaced]
  · simp [here, Function.update_of_ne (Ne.symm here), replaced]

theorem Contents.getD_moved : (moved M i src j dst b m).getD k [] =
    if i = m ∧ src = k then [] else if j = m ∧ dst = k then b else (M m).getD k [] := by
  simp only [Std.ExtTreeMap.getD_eq_getD_getElem?, getElem?_moved]
  split_ifs <;> rfl

end Moved

/-! ## Stocks that tell maps -/

/-- a stock has the lengths and the rows of some bytes, and no others -/
structure Stock.Tells (f : Stock) (width : Nat) (m : Contents) : Prop where
  lengths : f.lengths = m.map fun _ b => UInt64.ofNat b.length
  holds : ∀ name, Layout.Holds width f.data name (m.getD name [])
  small : ∀ name, (m.getD name []).length < UInt64.size

namespace Stock.Tells

variable {f : Stock} {width : Nat} {m : Contents} {name : Key}

theorem empty (width : Nat) : Tells {} width ∅ where
  lengths := Std.ExtTreeMap.ext_getElem? fun k => by simp
  holds k := by
    rw [Std.ExtTreeMap.getD_empty]
    exact Layout.Holds.empty fun c => Table.get_empty k c
  small k := by simp

/-- the bytes of a file that is there -/
theorem found (h : f.Tells width m) {b : Bytes} (there : m[name]? = some b) :
    Layout.Holds width f.data name b ∧ b.length < UInt64.size := by
  have bytes : m.getD name [] = b := by rw [Std.ExtTreeMap.getD_eq_getD_getElem?, there, Option.getD_some]
  exact ⟨bytes ▸ h.holds name, bytes ▸ h.small name⟩

theorem getElem?_lengths (h : f.Tells width m) (name : Key) :
    f.lengths[name]? = m[name]?.map fun b => UInt64.ofNat b.length := by
  rw [h.lengths, Std.ExtTreeMap.getElem?_map]

theorem find_lengths (h : f.Tells width m) (name : Key) :
    f.lengths.find name = (fun b => UInt64.ofNat b.length) <$> m.find name := by
  rw [Catalog.Index.find, Contents.find, h.getElem?_lengths]
  cases m[name]? <;> rfl

theorem read (h : f.Tells width m) (hw : 0 < width) (name : Key) {offset : UInt64} {len : Nat}
    (small : name ∈ m → len ≤ longestBuffer ∧ offset.toNat + len < UInt64.size) :
    f.read width name offset len = (fun b => Layout.slice b offset.toNat len) <$> m.find name := by
  rw [Stock.read, h.find_lengths, Contents.find]
  cases there : m[name]? with
  | none => rfl
  | some b =>
    obtain ⟨short, small⟩ := small (Std.ExtTreeMap.mem_iff_isSome_getElem?.2 (by rw [there]; rfl))
    refine (Layout.stretch_of_fits _ _ short (.inr small)).trans ?_
    rw [(h.found there).1.pieces hw (Nat.le_of_lt small)]
    rfl

theorem without (h : f.Tells width m) (name : Key) : (f.without name).Tells width (m.erase name) where
  lengths := Std.ExtTreeMap.ext_getElem? fun k => by
    rw [getElem?_without, h.getElem?_lengths, Std.ExtTreeMap.getElem?_map, Std.ExtTreeMap.getElem?_erase]
    by_cases same : name = k <;> simp [same]
  holds k := by
    by_cases same : name = k
    · subst same
      rw [Std.ExtTreeMap.getD_erase_self]
      refine .empty fun c => ?_
      rw [get_without, if_pos rfl]
    · rw [Std.ExtTreeMap.getD_erase, if_neg (by simpa using same)]
      refine (h.holds k).congr fun c => ?_
      rw [get_without, if_neg same]
  small k := by
    rw [Std.ExtTreeMap.getD_erase]
    split_ifs
    · decide
    · exact h.small k

/-- a writer starts at the end of a file's bytes -/
theorem start (h : f.Tells width m) (name : Key) :
    f.lengths[name]?.getD 0 = UInt64.ofNat (m.getD name []).length := by
  rw [h.getElem?_lengths, Std.ExtTreeMap.getD_eq_getD_getElem?]
  cases m[name]? <;> rfl

/-- a session appends what it writes -/
theorem after (h : f.Tells width m) (hw : 0 < width) (name : Key) (steps : List Writer.Step)
    (fits : (m.getD name []).length + (Writer.bytes steps).length < UInt64.size) :
    (f.after width name steps).Tells width (m.insert name (m.getD name [] ++ Writer.bytes steps)) := by
  obtain ⟨stop, holds⟩ := Writer.written_holds hw (h.holds name) steps fits
  rw [← h.start] at stop holds
  refine ⟨Std.ExtTreeMap.ext_getElem? fun k => ?_, fun k => ?_, fun k => ?_⟩
  · rw [getElem?_after, stop, h.getElem?_lengths, Std.ExtTreeMap.getElem?_map, Std.ExtTreeMap.getElem?_insert]
    by_cases same : name = k <;> simp [same]
  · by_cases same : name = k
    · subst same
      rw [Std.ExtTreeMap.getD_insert_self]
      exact holds
    · rw [Std.ExtTreeMap.getD_insert, if_neg (by simpa using same)]
      exact (h.holds k).congr (get_after same)
  · rw [Std.ExtTreeMap.getD_insert]
    split_ifs
    · rwa [List.length_append]
    · exact h.small k

theorem replaced (h : f.Tells width m) (hw : 0 < width) (name : Key) {b : Bytes} (small : b.length < UInt64.size) :
    (f.replaced width name b).Tells width (m.insert name b) := by
  have fits : ((m.erase name).getD name []).length + (Writer.bytes [.write b]).length < UInt64.size := by
    simpa [Writer.bytes] using small
  have after := (h.without name).after hw name [.write b] fits
  have insert : (m.erase name).insert name ((m.erase name).getD name [] ++ Writer.bytes [.write b]) =
      m.insert name b := by
    refine Std.ExtTreeMap.ext_getElem? fun k => ?_
    by_cases same : name = k <;> simp [same, Writer.bytes, Std.ExtTreeMap.getElem?_insert, Std.ExtTreeMap.getElem?_erase]
  rwa [insert] at after

end Stock.Tells

namespace Plan

variable (p : Plan)

/-! ## What steps do to maps -/

/-- what a step comes to if directories are maps: its outcome, and the maps after it -/
def mapped : Site.Step → (Nat → Contents) → Except Error Site.Answer × (Nat → Contents)
  | .has i name, M => (.ok (.flag (decide (name ∈ M i))), M)
  | .length i name, M => ((fun b => .length (UInt64.ofNat b.length)) <$> (M i).find name, M)
  | .list i, M => (.ok (.names (M i).keys), M)
  | .read i name offset len, M => ((fun b => .bytes (Layout.slice b offset.toNat len)) <$> (M i).find name, M)
  | .write i name steps, M =>
    (.ok .done, Function.update M i ((M i).insert name ((M i).getD name [] ++ Writer.bytes steps)))
  | .delete i name, M =>
    if name ∈ M i then (.ok .done, Function.update M i ((M i).erase name)) else (.error (.notFound name), M)
  | .copy i src j dst, M =>
    match (M i)[src]? with
    | none => (.error (.notFound src), M)
    | some b =>
      (.ok .done, if i = j ∧ src = dst then M
        else if p.Moves i j then Contents.moved M i src j dst b
        else Function.update M j ((M j).insert dst b))
  | .sync _, M => (.ok .done, M)

/-- the outcomes of steps one after another, if directories are maps -/
def mappedAll : List Site.Step → (Nat → Contents) → List (Except Error Site.Answer)
  | [], _ => []
  | step :: rest, M => (p.mapped step M).1 :: mappedAll rest (p.mapped step M).2

/-- lengths, positions and the length of a chunk are numbers of 64 bits, and bytes that are read lie in a buffer -/
def Small : Site.Step → (Nat → Contents) → Prop
  | .read i name offset len, M => name ∈ M i → len ≤ longestBuffer ∧ offset.toNat + len < UInt64.size
  | .write i name steps, M => ((M i).getD name []).length + (Writer.bytes steps).length < UInt64.size
  | .copy i src j dst, M => src ∈ M i → i = j ∧ src = dst ∨ p.Moves i j ∨
      p.width i * Directory.copyColumns < UInt64.size ∧
        min (chunkLength (p.width i)) ((M i).getD src []).length ≤ longestBuffer
  | _, _ => True

instance : ∀ (step : Site.Step) (M : Nat → Contents), Decidable (p.Small step M)
  | .read .., _ => inferInstanceAs (Decidable (_ → _))
  | .write .., _ => inferInstanceAs (Decidable (_ < _))
  | .copy .., _ => inferInstanceAs (Decidable (_ → _ ∨ _ ∨ _ ∧ _))
  | .has .., _ | .length .., _ | .list _, _ | .delete .., _ | .sync _, _ => inferInstanceAs (Decidable True)

def SmallAll : List Site.Step → (Nat → Contents) → Prop
  | [], _ => True
  | step :: rest, M => p.Small step M ∧ SmallAll rest (p.mapped step M).2

instance decidableSmallAll : ∀ (steps : List Site.Step) (M : Nat → Contents), Decidable (p.SmallAll steps M)
  | [], _ => inferInstanceAs (Decidable True)
  | step :: rest, M => @instDecidableAnd _ _ _ (decidableSmallAll rest (p.mapped step M).2)

/-- the stocks of a site tell its maps -/
def Tells (F : Stocks) (M : Nat → Contents) : Prop := ∀ i, (F i).Tells (p.width i) (M i)

variable {p} {F : Stocks} {M : Nat → Contents}

namespace Tells

theorem update (h : p.Tells F M) {i : Nat} {f : Stock} {m : Contents} (here : f.Tells (p.width i) m) :
    p.Tells (Function.update F i f) (Function.update M i m) := by
  intro k
  by_cases same : k = i
  · subst same
    rwa [Function.update_self, Function.update_self]
  · rw [Function.update_of_ne same, Function.update_of_ne same]
    exact h k

/-- a file that is moved is gone, and its bytes are the other's -/
theorem moved (h : p.Tells F M) {i j : Nat} {src dst : Key} (moves : p.Moves i j) (other : ¬ (i = j ∧ src = dst))
    {b : Bytes} (found : (M i)[src]? = some b) :
    p.Tells (F.moved i src j dst (UInt64.ofNat b.length)) (Contents.moved M i src j dst b) := by
  obtain ⟨_, _, _, _, same⟩ := moves
  obtain ⟨holds, small⟩ := (h i).found found
  intro m
  refine ⟨Std.ExtTreeMap.ext_getElem? fun k => ?_, fun k => ?_, fun k => ?_⟩
  · rw [Stocks.getElem?_moved, Std.ExtTreeMap.getElem?_map, Contents.getElem?_moved, (h m).getElem?_lengths]
    split_ifs <;> rfl
  · have cells := Stocks.get_moved (F := F) (UInt64.ofNat b.length) other m k
    rw [Contents.getD_moved]
    split_ifs with gone here
    · exact .empty fun c => by rw [cells, if_pos gone]
    · have width : p.width m = p.width i := by rw [same, here.1]
      rw [width]
      exact holds.congr fun c => by rw [cells, if_neg gone, if_pos here]
    · exact ((h m).holds k).congr fun c => by rw [cells, if_neg gone, if_neg here]
  · rw [Contents.getD_moved]
    split_ifs
    · decide
    · exact small
    · exact (h m).small k

/-- small steps do not run out of buffers or positions -/
theorem fits (h : p.Tells F M) (narrow : ∀ i, p.width i ≤ longestBuffer) {step : Site.Step} (small : p.Small step M) :
    p.Fits step F := by
  cases step with
  | has | length | list | read | delete | sync => trivial
  | write i name steps =>
    refine .inr ⟨narrow i, ?_⟩
    rw [(h i).start, UInt64.toNat_ofNat_of_lt' ((h i).small name)]
    exact small
  | copy i src j dst =>
    intro n found
    rw [(h i).getElem?_lengths] at found
    obtain ⟨b, there, rfl⟩ := Option.map_eq_some_iff.1 found
    have here : src ∈ M i := Std.ExtTreeMap.mem_iff_isSome_getElem?.2 (by rw [there]; rfl)
    refine (small here).imp id (Or.imp id fun short => ⟨short.1, .inr ⟨?_, narrow j⟩⟩)
    rw [Std.ExtTreeMap.getD_eq_getD_getElem?, there] at short
    rw [UInt64.toNat_ofNat_of_lt' ((h i).found there).2]
    exact short.2

/-- **A step** has the outcome that maps give it, and the stocks that it leaves tell the maps after it. -/
theorem step (h : p.Tells F M) {step : Site.Step} (small : p.Small step M) :
    (p.expect step F).1 = (p.mapped step M).1 ∧ p.Tells (p.expect step F).2 (p.mapped step M).2 := by
  cases step with
  | has i name =>
    refine ⟨?_, h⟩
    simp only [expect, mapped, (h i).lengths, Std.ExtTreeMap.mem_map]
  | length i name =>
    refine ⟨?_, h⟩
    simp only [expect, mapped, (h i).find_lengths, Functor.map_map]
  | list i =>
    refine ⟨?_, h⟩
    simp only [expect, mapped, (h i).lengths, Std.ExtTreeMap.keys_map]
  | read i name offset len =>
    refine ⟨?_, h⟩
    simp only [expect, mapped, (h i).read (p.positive i) name small, Functor.map_map]
  | write i name steps => exact ⟨rfl, h.update ((h i).after (p.positive i) name steps small)⟩
  | delete i name =>
    simp only [expect, mapped, (h i).lengths, Std.ExtTreeMap.mem_map]
    split_ifs
    · exact ⟨rfl, h.update ((h i).without name)⟩
    · exact ⟨rfl, h⟩
  | copy i src j dst =>
    simp only [expect, mapped, (h i).getElem?_lengths]
    cases found : (M i)[src]? with
    | none => exact ⟨rfl, h⟩
    | some b =>
      obtain ⟨holds, within⟩ := (h i).found found
      refine ⟨rfl, ?_⟩
      simp only [Option.map_some]
      split_ifs with same moves
      · exact h
      · exact h.moved moves same found
      · have bytes : Layout.read (p.width i) (F i).data src 0 b.length = b := by
          rw [holds.pieces (p.positive i) (by rw [Nat.zero_add]; exact within.le)]
          simpa using Layout.slice_all b 0
        rw [copied, UInt64.toNat_ofNat_of_lt' within, bytes]
        exact h.update ((h j).replaced (p.positive j) dst within)
  | sync i => exact ⟨rfl, h⟩

end Tells

/-! ## Runs -/

/-- a run has the outcomes that maps give it, and does not run out of buffers or positions -/
theorem Tells.run (h : p.Tells F M) (narrow : ∀ i, p.width i ≤ longestBuffer) {steps : List Site.Step}
    (small : p.SmallAll steps M) : p.FitsAll steps F ∧ (p.expectAll steps F).1 = p.mappedAll steps M := by
  induction steps generalizing F M with
  | nil => exact ⟨trivial, rfl⟩
  | cons step rest ih =>
    obtain ⟨answer, after⟩ := h.step small.1
    obtain ⟨fits, answers⟩ := ih after small.2
    exact ⟨⟨h.fits narrow small.1, fits⟩, congrArg₂ List.cons answer answers⟩

/-- **Directories are maps** of names to byte strings: every step of a run from a new site has the outcome that maps give
it, if no two files that are made share a column of the listing. -/
theorem play_mapped (p : Plan) (narrow : ∀ i, p.width i ≤ longestBuffer) (steps : List Site.Step)
    (apart : Catalog.Apart (Site.InUse steps))
    (small : p.SmallAll steps fun _ => ∅) : (p.play steps {}).1 = p.mappedAll steps fun _ => ∅ := by
  have tells : p.Tells (fun _ => {}) fun _ => ∅ := fun i => Stock.Tells.empty (p.width i)
  obtain ⟨fits, answers⟩ := tells.run narrow small
  rw [(play_expected (Sound.empty p) (fun _ => Site.uses apart) fits (p.stocked_empty _)).1, answers]

/-- a file is written in two sessions, copied, removed and made again; it shows nothing of its past -/
theorem play_mapped_again :
    let p := simple (fun _ => false) (fun _ => 2) fun _ => Nat.two_pos
    let steps := [.write 0 "f" [.write [1, 2, 3]], .write 0 "f" [.write [4]], .copy 0 "f" 0 "g", .delete 0 "f",
      .delete 0 "f", .write 0 "f" [.write [5]], .read 0 "f" 0 4, .read 0 "g" 1 3, .length 0 "f", .list 0]
    (p.play steps {}).1 = [.ok .done, .ok .done, .ok .done, .ok .done, .error (.notFound "f"), .ok .done,
      .ok (.bytes [5, 0, 0, 0]), .ok (.bytes [2, 3, 4]), .ok (.length 1), .ok (.names ["f", "g"])] := by
  intro p steps
  have apart : Catalog.Apart (Site.InUse steps) :=
    Site.apart_of_nodup ["f", "g"] (by decide +kernel) (by decide +kernel)
  have narrow (i : Nat) : p.width i ≤ longestBuffer := show 2 ≤ longestBuffer by decide
  exact (play_mapped p narrow steps apart (by decide +kernel)).trans (by decide +kernel)

/-- no byte can be written where columns are wider than any buffer -/
theorem play_mapped_too_wide :
    let p := simple (fun _ => false) (fun _ => UInt64.size / 2) fun _ => by decide
    (p.play [.write 0 "f" [.write [1]], .read 0 "f" 0 1] {}).1 ≠
      p.mappedAll [.write 0 "f" [.write [1]], .read 0 "f" 0 1] fun _ => ∅ := by
  decide +kernel

end Plan

end RowFiles
