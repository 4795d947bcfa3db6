/-
What directories and sites answer about their files.

Readers of a directory may find that a file has some bytes (`Directory.Holds`) or that it is not there
(`Directory.Lacks`); the stock of the directory decides which (`Directory.Laws.holds_iff`).

On a site, a file that keeps some bytes is there, is listed, and gives its bytes to readers (`Plan.Keeps`); a file that is gone does
none of this (`Plan.Gone`). Two sites may answer alike about a file (`Plan.Alike`). The stocks of a site decide all of this.

- `Plan.expect_same`: a step leaves every file alone that it does not touch.
-/
import RowFiles.Proofs.Files.SiteRuns

namespace RowFiles

namespace Stock

/-- a file has some bytes -/
structure Has (f : Stock) (width : Nat) (name : Key) (b : Bytes) : Prop where
  length : f.lengths[name]? = some (UInt64.ofNat b.length)
  small : b.length < UInt64.size
  bytes : Layout.read width f.data name 0 b.length = b

/-- a file is the same in two stocks -/
structure Same (name : Key) (f g : Stock) : Prop where
  length : g.lengths[name]? = f.lengths[name]?
  cells : ∀ c, g.data.get name c = f.data.get name c

variable {f g h : Stock} {width : Nat} {name k : Key} {b : Bytes}

@[refl] theorem Same.refl (name : Key) (f : Stock) : f.Same name f := ⟨rfl, fun _ => rfl⟩

theorem Same.trans (first : f.Same name g) (later : g.Same name h) : f.Same name h :=
  ⟨later.length.trans first.length, fun c => (later.cells c).trans (first.cells c)⟩

/-- each stretch of a file's bytes is read -/
theorem Has.read (has : f.Has width name b) (hw : 0 < width) {offset : UInt64} {len : Nat} (short : len ≤ longestBuffer)
    (within : offset.toNat + len ≤ b.length) :
    f.read width name offset len = .ok (Layout.slice b offset.toNat len) := by
  rw [Stock.read, Catalog.Index.find, has.length, ← Layout.read_of_whole hw has.bytes within]
  exact Layout.stretch_of_fits _ _ short (.inr (Nat.lt_of_le_of_lt within has.small))

/-- a file of which each byte is read has the bytes -/
theorem has_of_read (hw : 0 < width) (length : f.lengths[name]? = some (UInt64.ofNat b.length))
    (small : b.length < UInt64.size) (each : ∀ offset : UInt64, offset.toNat + 1 ≤ b.length →
      f.read width name offset 1 = .ok (Layout.slice b offset.toNat 1)) : f.Has width name b := by
  have whole : Layout.read width f.data name 0 b.length = Layout.slice b 0 b.length := by
    refine Layout.read_eq_slice hw fun i hi => ?_
    have number : (UInt64.ofNat i).toNat = i := UInt64.toNat_ofNat_of_lt' (Nat.lt_trans hi small)
    have byte := each (UInt64.ofNat i) (by rw [number]; exact hi)
    rw [Stock.read, Catalog.Index.find, length, number] at byte
    rw [Nat.zero_add]
    exact Layout.read_of_stretch byte
  refine ⟨length, small, whole.trans ?_⟩
  simpa using Layout.slice_all b 0

theorem Has.congr (has : f.Has width name b) (same : f.Same name g) : g.Has width name b :=
  ⟨same.length.trans has.length, has.small, (Layout.read_congr same.cells ..).trans has.bytes⟩

theorem same_without (other : name ≠ k) : f.Same k (f.without name) :=
  ⟨by rw [getElem?_without, if_neg other], fun c => by rw [get_without, if_neg other]⟩

theorem same_after (other : name ≠ k) (steps : List Writer.Step) : f.Same k (f.after width name steps) :=
  ⟨by rw [getElem?_after, if_neg other], get_after other⟩

theorem same_replaced (other : name ≠ k) (b : Bytes) : f.Same k (f.replaced width name b) :=
  (same_without other).trans (same_after other _)

/-- a file that is replaced has the new bytes -/
theorem has_replaced (f : Stock) (hw : 0 < width) (name : Key) (small : b.length < UInt64.size) :
    (f.replaced width name b).Has width name b := by
  have empty : Layout.Holds width (f.without name).data name [] := .empty fun c => by rw [get_without, if_pos rfl]
  have fresh : (f.without name).lengths[name]?.getD 0 = 0 := by rw [getElem?_without, if_pos rfl, Option.getD_none]
  obtain ⟨stop, holds⟩ := Writer.written_holds hw empty [.write b] (by simpa [Writer.bytes] using small)
  simp only [Writer.bytes, List.nil_append, List.append_nil] at stop holds
  refine ⟨?_, small, ?_⟩
  · rw [replaced, getElem?_after, if_pos rfl, fresh]
    exact congrArg some stop
  · have row : Layout.Holds width (f.replaced width name b).data name b := by
      rw [replaced, after, fresh]
      exact holds
    rw [row.pieces hw (by rw [Nat.zero_add]; exact small.le)]
    simpa using Layout.slice_all b 0

end Stock

/-! ## Files for readers -/

/-- a file of a directory has some bytes for readers -/
structure Directory.Holds {σ : Type} (d : Directory (Run σ)) (s : σ) (name : Key) (b : Bytes) : Prop where
  length : (d.length name s).1 = .ok (UInt64.ofNat b.length)
  small : b.length < UInt64.size
  reads : ∀ offset : UInt64, ∀ len ≤ longestBuffer, offset.toNat + len ≤ b.length →
    (d.withReader name (fun r => r.readBytes offset len) s).1 = .ok (Layout.slice b offset.toNat len)

/-- a file is neither measured nor read -/
structure Directory.Lacks {σ : Type} (d : Directory (Run σ)) (s : σ) (name : Key) : Prop where
  length : (d.length name s).1 = .error (.notFound name)
  reads : ∀ offset len, (d.withReader name (fun r => r.readBytes offset len) s).1 = .error (.notFound name)

section

variable {σ : Type} {d : Directory (Run σ)} {i : Nat} {R : σ → Shelves → Prop} {U : Key → Prop} {F : Stocks} {s : σ}
  {name : Key} {b : Bytes}

/-- what readers find is decided by the stock -/
theorem Directory.Laws.holds_iff (laws : d.Laws i R) (hw : 0 < d.data.width) (hs : Stocked R U s F) :
    d.Holds s name b ↔ (F i).Has d.data.width name b := by
  obtain ⟨length, _, reads⟩ := laws.asked hw hs name
  constructor
  · intro h
    have found := Catalog.Index.find_eq_ok.1 (length.symm.trans h.length)
    refine Stock.has_of_read hw found h.small fun offset within => ?_
    exact (reads offset 1).symm.trans (h.reads offset 1 (by decide) within)
  · intro h
    refine ⟨length.trans (Catalog.Index.find_eq_ok.2 h.length), h.small, fun offset len short within => ?_⟩
    rw [reads, h.read hw short within]

/-- what cannot be measured is not read either -/
theorem Directory.lacks_of_missing (missing : (d.length name s).1 = .error (.notFound name)) : d.Lacks s name := by
  refine ⟨missing, fun offset len => ?_⟩
  rw [Laws.withReader_eq]
  exact Run.Fails.bind (R := fun r (_ : Unit) => r = s) (v := ()) (fun _ e => e ▸ missing) s rfl

/-- a directory lacks what has no length in its stock -/
theorem Directory.CatalogLaws.lacks (laws : d.CatalogLaws i R) (hs : Stocked R U s F)
    (absent : (F i).lengths[name]? = none) : d.Lacks s name := by
  obtain ⟨_, _, found, _⟩ := laws.length s hs
  refine lacks_of_missing ?_
  rw [found, Catalog.Index.find, absent]

/-- a file that answers all of some bytes at once has them -/
theorem Directory.Laws.holds_of_read (laws : d.Laws i R) (hw : 0 < d.data.width) (hs : Stocked R U s F)
    (short : b.length ≤ longestBuffer) (length : (d.length name s).1 = .ok (UInt64.ofNat b.length))
    (read : (d.withReader name (fun r => r.readBytes 0 b.length) s).1 = .ok b) : d.Holds s name b := by
  obtain ⟨find, _, reads⟩ := laws.asked hw hs name
  have found := find.symm.trans length
  rw [reads, Stock.read, found] at read
  exact (laws.holds_iff hw hs).2
    ⟨Catalog.Index.find_eq_ok.1 found, Nat.lt_of_le_of_lt short (by decide), Layout.read_of_stretch read⟩

end

theorem Stocks.same_update {F : Stocks} {i m : Nat} {f : Stock} {k : Key} (here : i = m → (F i).Same k f) :
    (F m).Same k (Function.update F i f m) := by
  by_cases same : i = m
  · subst same
    rw [Function.update_self]
    exact here rfl
  · rw [Function.update_of_ne (Ne.symm same)]

namespace Plan

/-- **A step leaves every file alone that it does not touch.** -/
theorem expect_same {p : Plan} {F : Stocks} {step : Site.Step} {m : Nat} {k : Key} (other : (m, k) ∉ step.touches) :
    (F m).Same k ((p.expect step F).2 m) := by
  cases step with
  | has | length | list | read | sync => rfl
  | write i name steps =>
    refine Stocks.same_update fun same => Stock.same_after (fun e => ?_) steps
    subst same e
    exact other List.mem_cons_self
  | delete i name =>
    simp only [expect]
    split_ifs
    · refine Stocks.same_update fun same => Stock.same_without fun e => ?_
      subst same e
      exact other List.mem_cons_self
    · rfl
  | copy i src j dst =>
    simp only [Site.Step.touches, List.mem_cons, Prod.mk.injEq, List.not_mem_nil, or_false, not_or] at other
    have source : ¬ (i = m ∧ src = k) := fun e => other.1 ⟨e.1.symm, e.2.symm⟩
    have dest : ¬ (j = m ∧ dst = k) := fun e => other.2 ⟨e.1.symm, e.2.symm⟩
    simp only [expect]
    cases (F i).lengths[src]? with
    | none => rfl
    | some n =>
      simp only
      split_ifs with same
      · rfl
      · refine ⟨?_, fun c => ?_⟩
        · rw [Stocks.getElem?_moved, if_neg source, if_neg dest]
        · rw [Stocks.get_moved n same, if_neg source, if_neg dest]
      · exact Stocks.same_update fun same => Stock.same_replaced (fun e => dest ⟨same, e⟩) _

/-! ## Answers -/

variable (p : Plan)

/-- what a site answers when it is asked something -/
def answer (s : Site) (q : Site.Step) : Except Error Site.Answer := (p.act q s).1

/-- a file is there, is listed and has some bytes -/
structure Keeps (s : Site) (i : Nat) (name : Key) (b : Bytes) : Prop where
  there : p.answer s (.has i name) = .ok (.flag true)
  length : p.answer s (.length i name) = .ok (.length (UInt64.ofNat b.length))
  small : b.length < UInt64.size
  reads : ∀ offset : UInt64, ∀ len ≤ longestBuffer, offset.toNat + len ≤ b.length →
    p.answer s (.read i name offset len) = .ok (.bytes (Layout.slice b offset.toNat len))
  listed : ∃ names, p.answer s (.list i) = .ok (.names names) ∧ name ∈ names

/-- a file has some bytes for readers -/
structure Readable (s : Site) (i : Nat) (name : Key) (b : Bytes) : Prop where
  length : p.answer s (.length i name) = .ok (.length (UInt64.ofNat b.length))
  small : b.length < UInt64.size
  reads : ∀ offset : UInt64, ∀ len ≤ longestBuffer, offset.toNat + len ≤ b.length →
    p.answer s (.read i name offset len) = .ok (.bytes (Layout.slice b offset.toNat len))

/-- a file is not there -/
structure Gone (s : Site) (i : Nat) (name : Key) : Prop where
  there : p.answer s (.has i name) = .ok (.flag false)
  length : p.answer s (.length i name) = .error (.notFound name)
  reads : ∀ offset len, p.answer s (.read i name offset len) = .error (.notFound name)
  listed : ∃ names, p.answer s (.list i) = .ok (.names names) ∧ name ∉ names

/-- two sites answer alike about a file -/
structure Alike (s r : Site) (i : Nat) (name : Key) : Prop where
  there : p.answer r (.has i name) = p.answer s (.has i name)
  length : p.answer r (.length i name) = p.answer s (.length i name)
  reads : ∀ offset len, p.answer r (.read i name offset len) = p.answer s (.read i name offset len)

/-- two sites list a file alike -/
def ListedAlike (s r : Site) (i : Nat) (name : Key) : Prop :=
  ∃ names names', p.answer s (.list i) = .ok (.names names) ∧ p.answer r (.list i) = .ok (.names names') ∧
    (name ∈ names' ↔ name ∈ names)

variable {p} {U : Key → Prop} {s r : Site} {F G : Stocks} {i : Nat} {name : Key} {b : Bytes}

theorem answer_expected (hs : Stocked p.Shown U s F) (sound : p.Sound F) (q : Site.Step) (uses : q.Uses U)
    (fits : p.Fits q F) : p.answer s q = (p.expect q F).1 := (act_shown sound uses fits hs).1

theorem answer_has (hs : Stocked p.Shown U s F) (sound : p.Sound F) :
    p.answer s (.has i name) = .ok (.flag (decide (name ∈ (F i).lengths))) :=
  answer_expected hs sound (.has i name) trivial trivial

theorem answer_length (hs : Stocked p.Shown U s F) (sound : p.Sound F) :
    p.answer s (.length i name) = .length <$> (F i).lengths.find name :=
  answer_expected hs sound (.length i name) trivial trivial

theorem answer_read (hs : Stocked p.Shown U s F) (sound : p.Sound F) (offset : UInt64) (len : Nat) :
    p.answer s (.read i name offset len) = .bytes <$> (F i).read (p.width i) name offset len :=
  answer_expected hs sound (.read i name offset len) trivial trivial

theorem answer_read_iff (hs : Stocked p.Shown U s F) (sound : p.Sound F) {offset : UInt64} {len : Nat} :
    p.answer s (.read i name offset len) = .ok (.bytes b) ↔ (F i).read (p.width i) name offset len = .ok b := by
  rw [answer_read hs sound]
  cases (F i).read (p.width i) name offset len with
  | error e => exact iff_of_false (by rintro ⟨⟩) (by rintro ⟨⟩)
  | ok v => exact ⟨fun e => by cases e; rfl, fun e => by cases e; rfl⟩

theorem answer_list (hs : Stocked p.Shown U s F) (sound : p.Sound F) (apart : Catalog.Apart U) :
    p.answer s (.list i) = .ok (.names (F i).lengths.keys) :=
  answer_expected hs sound (.list i) apart trivial

/-- the length of a file that is there is answered -/
theorem answer_length_iff (hs : Stocked p.Shown U s F) (sound : p.Sound F) {n : UInt64} :
    p.answer s (.length i name) = .ok (.length n) ↔ (F i).lengths[name]? = some n := by
  rw [answer_length hs sound, ← Catalog.Index.find_eq_ok]
  cases (F i).lengths.find name with
  | error e => exact iff_of_false (by rintro ⟨⟩) (by rintro ⟨⟩)
  | ok m => exact ⟨fun e => by cases e; rfl, fun e => by cases e; rfl⟩

theorem readable_iff (hs : Stocked p.Shown U s F) (sound : p.Sound F) :
    p.Readable s i name b ↔ (F i).Has (p.width i) name b := by
  constructor
  · intro h
    refine Stock.has_of_read (p.positive i) ((answer_length_iff hs sound).1 h.length) h.small fun offset within => ?_
    exact (answer_read_iff hs sound).1 (h.reads offset 1 (by decide) within)
  · intro h
    refine ⟨(answer_length_iff hs sound).2 h.length, h.small, fun offset len short within => ?_⟩
    exact (answer_read_iff hs sound).2 (h.read (p.positive i) short within)

theorem keeps_iff (hs : Stocked p.Shown U s F) (sound : p.Sound F) (apart : Catalog.Apart U) :
    p.Keeps s i name b ↔ (F i).Has (p.width i) name b := by
  constructor
  · intro h
    exact (readable_iff hs sound).1 ⟨h.length, h.small, h.reads⟩
  · intro h
    have there : name ∈ (F i).lengths := Std.ExtTreeMap.mem_iff_isSome_getElem?.2 (by rw [h.length]; rfl)
    obtain ⟨length, small, reads⟩ := (readable_iff hs sound).2 h
    refine ⟨?_, length, small, reads, _, answer_list hs sound apart, Std.ExtTreeMap.mem_keys.2 there⟩
    rw [answer_has hs sound, decide_eq_true there]

/-- a file that answers all of some bytes at once has them -/
theorem readable_of_read (hs : Stocked p.Shown U s F) (sound : p.Sound F) (short : b.length ≤ longestBuffer)
    (length : p.answer s (.length i name) = .ok (.length (UInt64.ofNat b.length)))
    (read : p.answer s (.read i name 0 b.length) = .ok (.bytes b)) : p.Readable s i name b := by
  have found := (answer_length_iff hs sound).1 length
  rw [answer_read_iff hs sound, Stock.read, Catalog.Index.find, found] at read
  exact (readable_iff hs sound).2 ⟨found, Nat.lt_of_le_of_lt short (by decide), Layout.read_of_stretch read⟩

theorem keeps_of_read (hs : Stocked p.Shown U s F) (sound : p.Sound F) (apart : Catalog.Apart U)
    (short : b.length ≤ longestBuffer) (length : p.answer s (.length i name) = .ok (.length (UInt64.ofNat b.length)))
    (read : p.answer s (.read i name 0 b.length) = .ok (.bytes b)) : p.Keeps s i name b :=
  (keeps_iff hs sound apart).2 ((readable_iff hs sound).1 (readable_of_read hs sound short length read))

theorem gone_of_absent (hs : Stocked p.Shown U s F) (sound : p.Sound F) (apart : Catalog.Apart U)
    (absent : (F i).lengths[name]? = none) : p.Gone s i name := by
  have missing : name ∉ (F i).lengths := by rw [Std.ExtTreeMap.mem_iff_isSome_getElem?, absent]; exact nofun
  refine ⟨?_, ?_, fun offset len => ?_, _, answer_list hs sound apart, fun h => missing (Std.ExtTreeMap.mem_keys.1 h)⟩
  · rw [answer_has hs sound, decide_eq_false missing]
  · rw [answer_length hs sound, Catalog.Index.find, absent]
    rfl
  · rw [answer_read hs sound, Stock.read, Catalog.Index.find, absent]
    rfl

theorem alike (hs : Stocked p.Shown U s F) (sound : p.Sound F) (hr : Stocked p.Shown U r G) (sound' : p.Sound G)
    (same : (F i).Same name (G i)) : p.Alike s r i name := by
  have find : (G i).lengths.find name = (F i).lengths.find name := by
    rw [Catalog.Index.find, Catalog.Index.find, same.length]
  refine ⟨?_, ?_, fun offset len => ?_⟩
  · rw [answer_has hs sound, answer_has hr sound']
    simp only [Std.ExtTreeMap.mem_iff_isSome_getElem?, same.length]
  · rw [answer_length hs sound, answer_length hr sound', find]
  · rw [answer_read hs sound, answer_read hr sound', Stock.read, Stock.read, find, Layout.stretch_congr same.cells]

theorem listedAlike (hs : Stocked p.Shown U s F) (sound : p.Sound F) (hr : Stocked p.Shown U r G) (sound' : p.Sound G)
    (apart : Catalog.Apart U) (same : (F i).Same name (G i)) : p.ListedAlike s r i name := by
  refine ⟨_, _, answer_list hs sound apart, answer_list hr sound' apart, ?_⟩
  simp only [Std.ExtTreeMap.mem_keys, Std.ExtTreeMap.mem_iff_isSome_getElem?, same.length]

end Plan

end RowFiles
