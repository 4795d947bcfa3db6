/-
Runs of steps on a site.

Each step asks a directory something or changes it, by the operations of directories. `Plan.expect` says what a step comes
to in stocks: its answer and the stocks after it. A step that asks for nothing too large comes to just that
(`Plan.act_expected`), any other step fails (`Plan.act_refused`); what is always true of stocks stays true
(`Plan.Sound.expect`). So a run in which nothing was too large has the answers that are expected and leaves the stocks
that are expected (`Plan.play_expected`).
-/
import RowFiles.Proofs.Files.Sites

namespace RowFiles

open Run

/-! ## Steps -/

inductive Site.Step where
  | has (i : Nat) (name : Key)
  | length (i : Nat) (name : Key)
  | list (i : Nat)
  | read (i : Nat) (name : Key) (offset : UInt64) (len : Nat)
  | write (i : Nat) (name : Key) (steps : List Writer.Step)
  | delete (i : Nat) (name : Key)
  | copy (i : Nat) (src : Key) (j : Nat) (dst : Key)
  | sync (i : Nat)

inductive Site.Answer where
  | done
  | flag (yes : Bool)
  | length (n : UInt64)
  | names (list : List Key)
  | bytes (b : Bytes)
deriving DecidableEq, Repr

/-- the files that a step may make or remove are in use; lists need names that do not collide -/
def Site.Step.Uses (U : Key → Prop) : Site.Step → Prop
  | .list _ => Catalog.Apart U
  | .write _ name _ | .delete _ name => U name
  | .copy _ src _ dst => U src ∧ U dst
  | .has .. | .length .. | .read .. | .sync _ => True

/-- the files that a step may make or remove -/
def Site.Step.touches : Site.Step → List (Nat × Key)
  | .write i name _ | .delete i name => [(i, name)]
  | .copy i src j dst => [(i, src), (j, dst)]
  | .has .. | .length .. | .list _ | .read .. | .sync _ => []

/-- the names of files that steps may make or remove -/
def Site.InUse (steps : List Site.Step) (name : Key) : Prop := ∃ step ∈ steps, ∃ i, (i, name) ∈ step.touches

theorem Site.uses {steps : List Site.Step} (apart : Catalog.Apart (InUse steps)) {step : Site.Step}
    (here : step ∈ steps) : step.Uses (InUse steps) := by
  cases step with
  | has | length | read | sync => trivial
  | list => exact apart
  | write i name | delete i name => exact ⟨_, here, i, List.mem_cons_self⟩
  | copy i src j dst => exact ⟨⟨_, here, i, by simp [Step.touches]⟩, ⟨_, here, j, by simp [Step.touches]⟩⟩

/-- names that include those in use are apart if no two of them share a column of the listing -/
theorem Site.apart_of_nodup {steps : List Site.Step} (names : List Key)
    (all : ∀ step ∈ steps, ∀ file ∈ step.touches, file.2 ∈ names) (nodup : (names.map Catalog.listingColumn).Nodup) :
    Catalog.Apart (InUse steps) :=
  .of_nodup names (fun _ ⟨step, here, _, touched⟩ => all step here _ touched) nodup

namespace Plan

variable (p : Plan)

def act : Site.Step → Run Site Site.Answer
  | .has i name => .flag <$> (p.directory i).has name
  | .length i name => .length <$> (p.directory i).length name
  | .list i => .names <$> (p.directory i).list
  | .read i name offset len => .bytes <$> (p.directory i).withReader name fun r => r.readBytes offset len
  | .write i name steps => (fun _ => .done) <$> (p.directory i).withWriter name fun w => steps.forM w.act
  | .delete i name => (fun _ => .done) <$> (p.directory i).delete name
  | .copy i src j dst => (fun _ => .done) <$> Directory.copy (p.directory i) src (p.directory j) dst
  | .sync i => (fun _ => .done) <$> (p.directory i).sync

/-- the outcomes of steps one after another, and the site that they leave -/
def play : List Site.Step → Site → List (Except Error Site.Answer) × Site
  | [], s => ([], s)
  | step :: rest, s =>
    let (o, s) := p.act step s
    let (os, s) := play rest s
    (o :: os, s)

/-! ## What steps come to -/

/-- the stocks after the bytes of a file are copied over another -/
def copied (F : Stocks) (i : Nat) (src : Key) (j : Nat) (dst : Key) (n : UInt64) : Stocks :=
  Function.update F j ((F j).replaced (p.width j) dst (Layout.read (p.width i) (F i).data src 0 n.toNat))

/-- what a step comes to: its outcome, and the stocks after it -/
def expect : Site.Step → Stocks → Except Error Site.Answer × Stocks
  | .has i name, F => (.ok (.flag (decide (name ∈ (F i).lengths))), F)
  | .length i name, F => (.length <$> (F i).lengths.find name, F)
  | .list i, F => (.ok (.names (F i).lengths.keys), F)
  | .read i name offset len, F => (.bytes <$> (F i).read (p.width i) name offset len, F)
  | .write i name steps, F => (.ok .done, Function.update F i ((F i).after (p.width i) name steps))
  | .delete i name, F =>
    if name ∈ (F i).lengths then (.ok .done, Function.update F i ((F i).without name))
    else (.error (.notFound name), F)
  | .copy i src j dst, F =>
    match (F i).lengths[src]? with
    | none => (.error (.notFound src), F)
    | some n =>
      (.ok .done, if i = j ∧ src = dst then F
        else if p.Moves i j then F.moved i src j dst n
        else p.copied F i src j dst n)
  | .sync _, F => (.ok .done, F)

/-- what steps come to one after another -/
def expectAll : List Site.Step → Stocks → List (Except Error Site.Answer) × Stocks
  | [], F => ([], F)
  | step :: rest, F =>
    ((p.expect step F).1 :: (expectAll rest (p.expect step F).2).1, (expectAll rest (p.expect step F).2).2)

/-- a session or a copy does not run out of buffers or positions -/
def Fits : Site.Step → Stocks → Prop
  | .write i name steps, F => Writer.Takes (p.width i) ((F i).lengths[name]?.getD 0).toNat (Writer.bytes steps)
  | .copy i src j dst, F => ∀ n, (F i).lengths[src]? = some n →
      i = j ∧ src = dst ∨ p.Moves i j ∨ CopyFits (p.width i) (p.width j) n
  | _, _ => True

def FitsAll : List Site.Step → Stocks → Prop
  | [], _ => True
  | step :: rest, F => p.Fits step F ∧ FitsAll rest (p.expect step F).2

end Plan

/-! ## What is always true of stocks -/

/-- a file that is not there has no bytes, a file of some length has some, and no column is wider than a buffer -/
structure Stock.Sound (width : Nat) (f : Stock) : Prop where
  absent : ∀ {name}, f.lengths[name]? = none → ∀ c, f.data.get name c = none
  filled : ∀ {name n}, f.lengths[name]? = some n → n ≠ 0 → ∃ c v, f.data.get name c = some v
  narrow : ∀ {k c v}, f.data.get k c = some v → width ≤ longestBuffer

namespace Stock

variable {width : Nat} {f : Stock} {name : Key} {steps : List Writer.Step}

theorem getElem?_after (k : Key) : (f.after width name steps).lengths[k]? =
    if name = k then some (Writer.written width name steps (f.lengths[name]?.getD 0) f.data).1 else f.lengths[k]? := by
  simp [after, Std.ExtTreeMap.getElem?_insert]

theorem get_after {k : Key} (other : name ≠ k) (c : Column) :
    (f.after width name steps).data.get k c = f.data.get k c :=
  Writer.get_written (Ne.symm other) ..

namespace Sound

theorem empty (width : Nat) : Sound width {} where
  absent _ _ := by simp
  filled h := by simp at h
  narrow h := by simp at h

theorem without (h : f.Sound width) (name : Key) : (f.without name).Sound width where
  absent {k} absent c := by
    rw [getElem?_without] at absent
    rw [get_without]
    split_ifs at absent ⊢
    · rfl
    · exact h.absent absent c
  filled {k n} found some := by
    rw [getElem?_without] at found
    split_ifs at found with same
    simp only [get_without, if_neg same]
    exact h.filled found some
  narrow {k c v} cell := by
    rw [get_without] at cell
    split_ifs at cell
    exact h.narrow cell

theorem after (h : f.Sound width) (hw : 0 < width) (name : Key) {steps : List Writer.Step}
    (fits : Writer.bytes steps = [] ∨ width ≤ longestBuffer) : (f.after width name steps).Sound width where
  absent {k} absent c := by
    rw [getElem?_after] at absent
    split_ifs at absent with same
    rw [get_after same]
    exact h.absent absent c
  filled {k n} found some := by
    rw [getElem?_after] at found
    split_ifs at found with same
    · subst same
      cases found
      refine Writer.written_filled hw steps (fun before => ?_) some
      cases known : f.lengths[name]? with
      | none => exact absurd (by rw [known]; rfl) before
      | some n =>
        rw [known] at before
        exact h.filled known before
    · simp only [get_after same]
      exact h.filled found some
  narrow {k c v} cell := by
    refine fits.elim (fun nothing => ?_) id
    rw [Stock.after, Writer.written_nil nothing] at cell
    exact h.narrow cell

theorem replaced (h : f.Sound width) (hw : 0 < width) (name : Key) {b : Bytes} (fits : b = [] ∨ width ≤ longestBuffer) :
    (f.replaced width name b).Sound width :=
  (h.without name).after hw name (fits.imp (fun e => by rw [e]; rfl) id)

end Sound

end Stock

/-- all stocks are sound -/
def Plan.Sound (p : Plan) (F : Stocks) : Prop := ∀ i, (F i).Sound (p.width i)

namespace Plan

variable {p : Plan} {F : Stocks} {i j : Nat} {src dst : Key} {n : UInt64}

theorem Sound.update (h : p.Sound F) {f : Stock} (here : f.Sound (p.width i)) : p.Sound (Function.update F i f) := by
  intro k
  by_cases same : k = i
  · subst same
    rwa [Function.update_self]
  · rw [Function.update_of_ne same]
    exact h k

theorem Sound.moved (h : p.Sound F) (moves : p.Moves i j) (other : ¬ (i = j ∧ src = dst))
    (found : (F i).lengths[src]? = some n) : p.Sound (F.moved i src j dst n) := by
  obtain ⟨_, _, _, _, same⟩ := moves
  intro m
  refine ⟨fun {k} absent c => ?_, fun {k l} there some => ?_, fun {k c v} cell => ?_⟩
  · rw [Stocks.getElem?_moved] at absent
    rw [Stocks.get_moved n other]
    split_ifs at absent ⊢
    · rfl
    · exact (h m).absent absent c
  · rw [Stocks.getElem?_moved] at there
    simp only [Stocks.get_moved n other]
    split_ifs at there ⊢ with gone here
    · cases there
      exact (h i).filled found some
    · exact (h m).filled there some
  · rw [Stocks.get_moved n other] at cell
    split_ifs at cell with gone here
    · rw [← here.1, ← same]
      exact (h i).narrow cell
    · exact (h m).narrow cell

theorem Sound.empty (p : Plan) : p.Sound fun _ => {} := fun i => Stock.Sound.empty (p.width i)

/-- **What is true of stocks stays true** in every step that asks for nothing too large. -/
theorem Sound.expect (h : p.Sound F) (step : Site.Step) (fits : p.Fits step F) : p.Sound (p.expect step F).2 := by
  cases step with
  | has | length | list | read | sync => exact h
  | write i name steps => exact h.update ((h i).after (p.positive i) name (fits.imp id And.left))
  | delete i name =>
    simp only [Plan.expect]
    split_ifs
    · exact h.update ((h i).without name)
    · exact h
  | copy i src j dst =>
    simp only [Plan.expect]
    cases found : (F i).lengths[src]? with
    | none => exact h
    | some n =>
      simp only
      split_ifs with same moves
      · exact h
      · exact h.moved moves same found
      · have short := ((fits n found).resolve_left same).resolve_left moves
        refine h.update ((h j).replaced (p.positive j) dst (short.2.imp (fun none => ?_) And.right))
        rw [none, ← List.length_eq_zero_iff, Layout.length_read (p.positive i)]
        rfl

/-! ## Steps at work -/

variable {U : Key → Prop} {s : Site}

/-- what has no length has no row either -/
theorem Sound.empty_row (h : p.Sound F) (i : Nat) (name : Key) (absent : name ∉ (F i).lengths) (c : Column) :
    (F i).data.get name c = none :=
  (h i).absent (Std.ExtTreeMap.getElem?_eq_none absent) c

theorem copy_same (same : i = j ∧ src = dst) :
    Directory.copy (p.directory i) src (p.directory j) dst = (p.directory i).length src >>= fun _ => pure () :=
  if_pos same

theorem copy_moves (other : ¬ (i = j ∧ src = dst)) :
    Directory.copy (p.directory i) src (p.directory j) dst =
      tryCatch (Directory.linkCopy (p.directory i) src (p.directory j) dst) fun
        | .fastCopy _ => Directory.byteCopy (p.directory i) src (p.directory j) dst
        | e => throw e :=
  if_neg other

theorem copy_stays (other : ¬ (i = j ∧ src = dst)) (stays : ¬ p.Moves i j) :
    Directory.copy (p.directory i) src (p.directory j) dst =
      Directory.byteCopy (p.directory i) src (p.directory j) dst := by
  obtain ⟨fault, refused⟩ := linkCopy_refused stays src dst
  rw [copy_moves other, refused, tryCatch_throw]

/-- a file that is not there cannot be copied -/
theorem copy_missing (absent : (F i).lengths[src]? = none) :
    Ends (Stocked p.Shown U) (Directory.copy (p.directory i) src (p.directory j) dst) F fun o G =>
      o = .error (.notFound src) ∧ G = F := by
  have source := directory_laws p i
  by_cases same : i = j ∧ src = dst
  · rw [copy_same same]
    exact source.missing absent
  · by_cases moves : p.Moves i j
    · rw [copy_moves same, linkCopy_eq moves]
      refine Ends.tryCatch (Ends.mono (source.missing absent) fun o G hG => ?_)
      obtain ⟨rfl, rfl⟩ := hG
      exact .inr ⟨_, rfl, ends_throw _ ⟨rfl, rfl⟩⟩
    · rw [copy_stays same moves, Directory.byteCopy_eq]
      exact source.missing absent

/-- **A copy** moves the file, or copies its bytes, or does nothing to a file copied onto itself. -/
theorem copy_found (sound : p.Sound F) (usedSrc : U src) (usedDst : U dst) (found : (F i).lengths[src]? = some n)
    (fits : p.Fits (.copy i src j dst) F) :
    Yields (Stocked p.Shown U) (Directory.copy (p.directory i) src (p.directory j) dst) F fun _ G =>
      G = if i = j ∧ src = dst then F
        else if p.Moves i j then F.moved i src j dst n
        else p.copied F i src j dst n := by
  have source := directory_laws p i
  have dest := directory_laws p j
  have absent := sound.empty_row j dst
  split_ifs with same moves
  · rw [copy_same same]
    refine (source.lengthOf found).next ?_
    exact yields_pure () rfl
  · rw [copy_moves same]
    exact (linkCopy_moves moves usedSrc usedDst same absent found).tryCatch
  · have short := ((fits n found).resolve_left same).resolve_left moves
    rw [← p.width_directory i, ← p.width_directory j] at short
    have copied := source.byteCopy dest (p.positive_directory i) (p.positive_directory j) usedDst same absent found short
    rw [p.width_directory i, p.width_directory j] at copied
    rw [copy_stays same moves]
    exact copied

theorem copy_refused (sound : p.Sound F) (usedDst : U dst) (unfit : ¬ p.Fits (.copy i src j dst) F) :
    Fails (Stocked p.Shown U) (Directory.copy (p.directory i) src (p.directory j) dst) F .tooLarge := by
  simp only [Fits, not_forall, not_or] at unfit
  obtain ⟨n, found, same, stays, long⟩ := unfit
  rw [← p.width_directory i, ← p.width_directory j] at long
  rw [copy_stays same stays]
  exact (directory_laws p i).byteCopy_refused (directory_laws p j) (p.positive_directory i) (p.positive_directory j)
    usedDst (sound.empty_row j dst) found long

/-- **A step** that asks for nothing too large has the outcome that is expected and leaves the stocks that are expected. -/
theorem act_expected (sound : p.Sound F) {step : Site.Step} (uses : step.Uses U) (fits : p.Fits step F) :
    Ends (Stocked p.Shown U) (p.act step) F fun o G => (o, G) = p.expect step F := by
  cases step with
  | has i name =>
    refine Ends.map (Ends.mono (directory_laws p i).has fun o G hG => ?_)
    obtain ⟨_, rfl, rfl, rfl⟩ := hG
    rfl
  | length i name =>
    refine Ends.map (Ends.mono (directory_laws p i).length fun o G hG => ?_)
    obtain ⟨rfl, rfl⟩ := hG
    rfl
  | list i =>
    refine Ends.map (Ends.mono ((directory_laws p i).list uses) fun o G hG => ?_)
    obtain ⟨_, rfl, rfl, rfl⟩ := hG
    rfl
  | read i name offset len =>
    refine Ends.map (Ends.mono ((directory_laws p i).stretch (p.positive_directory i) offset len) fun o G hG => ?_)
    obtain ⟨rfl, rfl⟩ := hG
    rw [p.width_directory]
    rfl
  | write i name steps =>
    rw [Fits, ← p.width_directory i] at fits
    have session := (directory_laws p i).session (F := F) (p.positive_directory i) uses steps fits
    rw [p.width_directory] at session
    refine Ends.map (Ends.mono session fun o G hG => ?_)
    obtain ⟨_, rfl, rfl⟩ := hG
    rfl
  | delete i name =>
    refine Ends.map (Ends.mono ((directory_laws p i).deleted (directory_laws p i).deletes uses) fun o G hG => ?_)
    simp only [expect]
    split_ifs at hG ⊢
    · obtain ⟨rfl, rfl⟩ := hG
      rfl
    · obtain ⟨rfl, rfl⟩ := hG
      rfl
  | copy i src j dst =>
    simp only [expect]
    cases found : (F i).lengths[src]? with
    | none =>
      refine Ends.map (Ends.mono (copy_missing found) fun o G hG => ?_)
      obtain ⟨rfl, rfl⟩ := hG
      rfl
    | some n =>
      refine Ends.map (Ends.mono (copy_found sound uses.1 uses.2 found fits) fun o G hG => ?_)
      obtain ⟨_, rfl, rfl⟩ := hG
      rfl
  | sync i =>
    refine Ends.map (Ends.mono (directory_laws p i).sync fun o G hG => ?_)
    obtain ⟨_, rfl, rfl⟩ := hG
    rfl

theorem act_shown (sound : p.Sound F) {step : Site.Step} (uses : step.Uses U) (fits : p.Fits step F)
    (hs : Stocked p.Shown U s F) :
    (p.act step s).1 = (p.expect step F).1 ∧ Stocked p.Shown U (p.act step s).2 (p.expect step F).2 := by
  obtain ⟨G, hG, same⟩ := act_expected sound uses fits s hs
  obtain rfl : G = (p.expect step F).2 := congrArg Prod.snd same
  exact ⟨congrArg Prod.fst same, hG⟩

/-- a step that runs out of buffers or positions fails -/
theorem act_refused (sound : p.Sound F) {step : Site.Step} (uses : step.Uses U) (unfit : ¬ p.Fits step F) :
    Fails (Stocked p.Shown U) (p.act step) F .tooLarge := by
  cases step with
  | has | length | list | read | delete | sync => exact absurd trivial unfit
  | write i name steps =>
    have empty (wide : longestBuffer < (p.directory i).data.width) (c : Column) : (F i).data.get name c = none := by
      cases cell : (F i).data.get name c with
      | none => rfl
      | some v => exact absurd ((sound i).narrow cell) (Nat.not_le.2 (p.width_directory i ▸ wide))
    rw [Fits, ← p.width_directory i] at unfit
    exact ((directory_laws p i).session_refused (p.positive_directory i) uses steps unfit empty).map
  | copy i src j dst => exact (copy_refused sound uses.2 unfit).map

/-! ## Runs -/

/-- a new site shows empty stocks -/
theorem stocked_empty (p : Plan) (U : Key → Prop) : Stocked p.Shown U {} fun _ => {} := by
  refine ⟨fun _ => {}, ⟨rfl, rfl, Wired.empty .., trivial⟩, fun i => ⟨⟨?_, ?_, ?_⟩, ⟨?_, ?_, ?_⟩, rfl⟩⟩
  all_goals simp

/-- **A run** in which nothing is too large has the outcomes that are expected and leaves the stocks that are expected. -/
theorem play_expected (sound : p.Sound F) {steps : List Site.Step} (uses : ∀ step ∈ steps, step.Uses U)
    (fits : p.FitsAll steps F) (hs : Stocked p.Shown U s F) :
    (p.play steps s).1 = (p.expectAll steps F).1 ∧ Stocked p.Shown U (p.play steps s).2 (p.expectAll steps F).2 ∧
      p.Sound (p.expectAll steps F).2 := by
  induction steps generalizing s F with
  | nil => exact ⟨rfl, hs, sound⟩
  | cons step rest ih =>
    obtain ⟨answer, after⟩ := act_shown sound (uses step List.mem_cons_self) fits.1 hs
    obtain ⟨answers, after, sound'⟩ :=
      ih (sound.expect step fits.1) (fun q hq => uses q (List.mem_cons_of_mem _ hq)) fits.2 after
    exact ⟨congrArg₂ List.cons answer answers, after, sound'⟩

/-- in a run that never fails for what is too large, no step runs out of buffers or positions -/
theorem fitsAll_of_clean (sound : p.Sound F) {steps : List Site.Step} (uses : ∀ step ∈ steps, step.Uses U)
    (hs : Stocked p.Shown U s F) (clean : ∀ o ∈ (p.play steps s).1, o ≠ .error .tooLarge) : p.FitsAll steps F := by
  induction steps generalizing s F with
  | nil => trivial
  | cons step rest ih =>
    have used := uses step List.mem_cons_self
    have fits : p.Fits step F := by
      by_contra unfit
      exact clean _ List.mem_cons_self (act_refused sound used unfit s hs)
    obtain ⟨_, after⟩ := act_shown sound used fits hs
    exact ⟨fits, ih (sound.expect step fits) (fun q hq => uses q (List.mem_cons_of_mem _ hq)) after
      fun o ho => clean o (List.mem_cons_of_mem _ ho)⟩

/-- a run from a new site in which nothing was too large leaves stocks of which all is true that always is -/
theorem reached {steps : List Site.Step} (uses : ∀ step ∈ steps, step.Uses U)
    (clean : ∀ o ∈ (p.play steps {}).1, o ≠ .error .tooLarge) :
    ∃ F, Stocked p.Shown U (p.play steps {}).2 F ∧ p.Sound F := by
  have fits := fitsAll_of_clean (Sound.empty p) uses (p.stocked_empty U) clean
  exact ⟨_, (play_expected (Sound.empty p) uses fits (p.stocked_empty U)).2⟩

/-! ### Names that may collide -/

/-- names need not be apart where nothing is listed -/
theorem uses_of_unlisted {step : Site.Step} (unlisted : ∀ i, step ≠ .list i) : step.Uses fun _ => True := by
  cases step with
  | list i => exact absurd rfl (unlisted i)
  | copy => exact ⟨trivial, trivial⟩
  | has | length | read | write | delete | sync => trivial

/-- whatever the names are, a step for which nothing was too large leaves stocks of which all is true that always is -/
theorem act_reaches (hs : Stocked p.Shown (fun _ => True) s F) (sound : p.Sound F) {step : Site.Step}
    (clean : (p.act step s).1 ≠ .error .tooLarge) :
    ∃ G, Stocked p.Shown (fun _ => True) (p.act step s).2 G ∧ p.Sound G := by
  rcases em (∃ i, step = .list i) with ⟨i, rfl⟩ | unlisted
  · have asked : Ends (Stocked p.Shown fun _ => True) (p.act (.list i)) F fun _ G => G = F :=
      Ends.map_answer (directory_laws p i).list_changes_nothing
    obtain ⟨_, shown, rfl⟩ := asked s hs
    exact ⟨_, shown, sound⟩
  · have uses := uses_of_unlisted fun i e => unlisted ⟨i, e⟩
    have fits : p.Fits step F := by
      by_contra unfit
      exact clean (act_refused sound uses unfit s hs)
    exact ⟨_, (act_shown sound uses fits hs).2, sound.expect step fits⟩

theorem play_reaches (hs : Stocked p.Shown (fun _ => True) s F) (sound : p.Sound F) {steps : List Site.Step}
    (clean : ∀ o ∈ (p.play steps s).1, o ≠ .error .tooLarge) :
    ∃ G, Stocked p.Shown (fun _ => True) (p.play steps s).2 G ∧ p.Sound G := by
  induction steps generalizing s F with
  | nil => exact ⟨F, hs, sound⟩
  | cons step rest ih =>
    obtain ⟨G, shown, sound'⟩ := act_reaches hs sound (clean _ List.mem_cons_self)
    exact ih shown sound' fun o ho => clean o (List.mem_cons_of_mem _ ho)

end Plan

end RowFiles
