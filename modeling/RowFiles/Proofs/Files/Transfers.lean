/-
Files that are copied, from one directory to another or within one.

Where two directories move files, a copy takes the row and the source is gone (`Stocks.moved`); elsewhere the bytes are
copied and the source stays (`Plan.copied`).

- `Plan.copy_transfers`: either way the destination has the bytes of the source, and no other file changes.
- `Plan.move_puts_nothing`: no byte is put where a file is moved.
-/
import RowFiles.Proofs.Files.Answers

namespace RowFiles.Plan

open Run

variable {p : Plan} {U : Key → Prop} {s : Site} {F : Stocks} {i j : Nat} {src dst : Key} {b : Bytes}

/-! ## Stocks after a copy -/

theorem copied_has (has : (F i).Has (p.width i) src b) :
    (p.copied F i src j dst (UInt64.ofNat b.length) j).Has (p.width j) dst b := by
  unfold copied
  rw [Function.update_self, UInt64.toNat_ofNat_of_lt' has.small, has.bytes]
  exact Stock.has_replaced (F j) (p.positive j) dst has.small

theorem copied_source (other : ¬ (i = j ∧ src = dst)) (n : UInt64) :
    (F i).Same src (p.copied F i src j dst n i) := by
  apply Stocks.same_update
  intro same
  exact Stock.same_replaced (fun e => other ⟨same.symm, e.symm⟩) _

theorem moved_has (moves : p.Moves i j) (other : ¬ (i = j ∧ src = dst)) (has : (F i).Has (p.width i) src b) :
    (F.moved i src j dst (UInt64.ofNat b.length) j).Has (p.width j) dst b := by
  obtain ⟨_, _, _, _, same⟩ := moves
  refine ⟨?_, has.small, ?_⟩
  · rw [Stocks.getElem?_moved, if_neg other, if_pos ⟨rfl, rfl⟩]
  · have cells (c : Column) :
        (F.moved i src j dst (UInt64.ofNat b.length) j).data.get dst c = (F i).data.get src c := by
      rw [Stocks.get_moved _ other, if_neg other, if_pos ⟨rfl, rfl⟩]
    rw [Layout.read_congr cells, ← same]
    exact has.bytes

theorem moved_gone (n : UInt64) : (F.moved i src j dst n i).lengths[src]? = none := by
  rw [Stocks.getElem?_moved, if_pos ⟨rfl, rfl⟩]

/-- **No byte is put where a file is moved.** -/
theorem move_puts_nothing (hs : Stocked p.Shown U s F) (sound : p.Sound F) (used : (Site.Step.copy i src j dst).Uses U)
    (moves : p.Moves i j) (other : ¬ (i = j ∧ src = dst)) {n : UInt64} (found : (F i).lengths[src]? = some n) :
    (p.act (.copy i src j dst) s).2.yard.probe.bytes = s.yard.probe.bytes := by
  have start : Stocked (Shows (p.Stands (· = s.yard.probe.bytes))) U s F := by
    obtain ⟨V, ⟨catalogs, names, wired, _⟩, keeps⟩ := hs
    exact ⟨V, ⟨catalogs, names, wired, rfl⟩, keeps⟩
  have moved : Yields (Stocked (Shows (p.Stands (· = s.yard.probe.bytes))) U)
      (Directory.copy (p.directory i) src (p.directory j) dst) F fun _ G => G = F.moved i src j dst n := by
    rw [copy_moves other]
    exact (linkCopy_moves moves used.1 used.2 other (sound.empty_row j dst) found).tryCatch
  have quiet : Ends (Stocked (Shows (p.Stands (· = s.yard.probe.bytes))) U) (p.act (.copy i src j dst)) F
      fun _ _ => True := Ends.map (Ends.mono moved fun _ _ _ => trivial)
  obtain ⟨_, ⟨_, ⟨_, _, _, bytes⟩, _⟩, _⟩ := quiet s start
  exact bytes

/-! ## Copies -/

/-- a copy of a file that is there succeeds if the file is moved or its bytes can be copied -/
theorem copy_succeeds_iff (hs : Stocked p.Shown U s F) (sound : p.Sound F) (used : (Site.Step.copy i src j dst).Uses U)
    (other : ¬ (i = j ∧ src = dst)) {n : UInt64} (found : (F i).lengths[src]? = some n) :
    (p.act (.copy i src j dst) s).1 = .ok .done ↔ p.Moves i j ∨ CopyFits (p.width i) (p.width j) n := by
  constructor
  · intro done
    by_contra unfit
    have refused : (p.act (.copy i src j dst) s).1 = .error .tooLarge :=
      act_refused sound used (fun fits => unfit ((fits n found).resolve_left other)) s hs
    rw [done] at refused
    cases refused
  · intro either
    have fits : p.Fits (.copy i src j dst) F := by
      intro m there
      rw [found] at there
      cases there
      exact .inr either
    rw [(act_shown sound used fits hs).1]
    simp only [expect, found]

/-- a copy of a file that is not there finds nothing, and changes nothing -/
theorem copy_of_absent (hs : Stocked p.Shown U s F) (sound : p.Sound F) (used : (Site.Step.copy i src j dst).Uses U)
    (absent : (F i).lengths[src]? = none) :
    (p.act (.copy i src j dst) s).1 = .error (.notFound src) ∧ Stocked p.Shown U (p.act (.copy i src j dst) s).2 F := by
  have fits : p.Fits (.copy i src j dst) F := by
    intro n found
    rw [absent] at found
    cases found
  have shown := act_shown sound used fits hs
  simpa only [expect, absent] using shown

/-- what a copy leaves that succeeds -/
structure Transferred (p : Plan) (s r : Site) (i : Nat) (src : Key) (j : Nat) (dst : Key) (b : Bytes) : Prop where
  lands : p.Keeps r j dst b
  others : ∀ m k, (m, k) ≠ (i, src) → (m, k) ≠ (j, dst) → p.Alike s r m k ∧ p.ListedAlike s r m k
  gone : p.Gone r i src ↔ p.Moves i j
  stays : ¬ p.Moves i j → p.Keeps r i src b
  quiet : p.Moves i j → r.yard.probe.bytes = s.yard.probe.bytes

theorem Keeps.not_gone {name : Key} (keeps : p.Keeps s i name b) : ¬ p.Gone s i name := by
  intro gone
  have flags := keeps.there.symm.trans gone.there
  injection flags with flags
  injection flags with flags
  cases flags

theorem transferred (hs : Stocked p.Shown U s F) (sound : p.Sound F) (apart : Catalog.Apart U)
    (used : (Site.Step.copy i src j dst).Uses U) (other : ¬ (i = j ∧ src = dst)) (has : (F i).Has (p.width i) src b)
    (fits : p.Fits (.copy i src j dst) F) : p.Transferred s (p.act (.copy i src j dst) s).2 i src j dst b := by
  obtain ⟨r, hr⟩ : ∃ r, r = (p.act (.copy i src j dst) s).2 := ⟨_, rfl⟩
  obtain ⟨G, hG⟩ : ∃ G, G = (p.expect (.copy i src j dst) F).2 := ⟨_, rfl⟩
  have shown : Stocked p.Shown U r G := hr ▸ hG ▸ (act_shown sound used fits hs).2
  have sound' : p.Sound G := hG ▸ sound.expect _ fits
  have after : G = if p.Moves i j then F.moved i src j dst (UInt64.ofNat b.length)
      else p.copied F i src j dst (UInt64.ofNat b.length) := by
    simp only [hG, expect, has.length, if_neg other]
  have others (m : Nat) (k : Key) (source : (m, k) ≠ (i, src)) (dest : (m, k) ≠ (j, dst)) :
      p.Alike s r m k ∧ p.ListedAlike s r m k := by
    have same : (F m).Same k (G m) := by
      rw [hG]
      apply expect_same
      simp [Site.Step.touches, source, dest]
    exact ⟨alike hs sound shown sound' same, listedAlike hs sound shown sound' apart same⟩
  rw [← hr]
  rcases em (p.Moves i j) with moves | stays
  · rw [if_pos moves] at after
    have lands : p.Keeps r j dst b := (keeps_iff shown sound' apart).2 (after ▸ moved_has moves other has)
    have gone : p.Gone r i src := gone_of_absent shown sound' apart (after ▸ moved_gone _)
    have quiet : r.yard.probe.bytes = s.yard.probe.bytes :=
      hr ▸ move_puts_nothing hs sound used moves other has.length
    exact ⟨lands, others, ⟨fun _ => moves, fun _ => gone⟩, fun stays => absurd moves stays, fun _ => quiet⟩
  · rw [if_neg stays] at after
    have lands : p.Keeps r j dst b := (keeps_iff shown sound' apart).2 (after ▸ copied_has has)
    have source : p.Keeps r i src b :=
      (keeps_iff shown sound' apart).2 (after ▸ has.congr (copied_source other _))
    exact ⟨lands, others, ⟨fun gone => absurd gone source.not_gone, fun moves => absurd moves stays⟩,
      fun _ => source, fun moves => absurd moves stays⟩

/-- **Copies.** A copy of a file that is there succeeds just if the file is moved or its bytes can be copied. Then the
destination has the bytes of the source, whatever it had before, and no other file changes. The source is gone if files
move between the two directories, and no byte is put then; else it stays. A file that is not there is not found, and no
file changes. -/
theorem copy_transfers (p : Plan) (steps : List Site.Step) (i : Nat) (src : Key) (j : Nat) (dst : Key)
    (other : ¬ (i = j ∧ src = dst))
    (apart : Catalog.Apart (Site.InUse (.copy i src j dst :: steps)))
    (clean : ∀ o ∈ (p.play steps {}).1, o ≠ .error .tooLarge) :
    let s := (p.play steps {}).2
    let o := (p.act (.copy i src j dst) s).1
    let r := (p.act (.copy i src j dst) s).2
    (∀ b, p.Keeps s i src b →
      (o = .ok .done ↔ p.Moves i j ∨ CopyFits (p.width i) (p.width j) (UInt64.ofNat b.length)) ∧
      (o = .ok .done → p.Transferred s r i src j dst b)) ∧
    (p.answer s (.has i src) = .ok (.flag false) →
      o = .error (.notFound src) ∧ ∀ m k, p.Alike s r m k ∧ p.ListedAlike s r m k) := by
  intro s o r
  have used := Site.uses apart List.mem_cons_self
  obtain ⟨F, hs, sound⟩ := reached (fun _ here => Site.uses apart (List.mem_cons_of_mem _ here)) clean
  constructor
  · intro b keeps
    have has := (keeps_iff hs sound apart).1 keeps
    have succeeds := copy_succeeds_iff hs sound used other has.length
    refine ⟨succeeds, fun done => transferred hs sound apart used other has ?_⟩
    intro n found
    rw [has.length] at found
    cases found
    exact .inr (succeeds.1 done)
  · intro missing
    rw [answer_has hs sound] at missing
    injection missing with missing
    injection missing with missing
    have absent := Std.ExtTreeMap.getElem?_eq_none (of_decide_eq_false missing)
    obtain ⟨refused, shown⟩ := copy_of_absent hs sound used absent
    exact ⟨refused, fun m k => ⟨alike hs sound shown sound (.refl k (F m)),
      listedAlike hs sound shown sound apart (.refl k (F m))⟩⟩

/-- a file is moved over another in a directory that shares its rows -/
theorem copy_transfers_over :
    let p := simple (fun _ => true) (fun _ => 2) fun _ => Nat.two_pos
    let s := (p.play [.write 0 "f" [.write [1, 2, 3]], .write 1 "g" [.write [9, 9]], .write 1 "h" [.write [7]]] {}).2
    let r := (p.act (.copy 0 "f" 1 "g") s).2
    p.Keeps r 1 "g" [1, 2, 3] ∧ p.Gone r 0 "f" ∧ p.Alike s r 1 "h" ∧ r.yard.probe.bytes = s.yard.probe.bytes := by
  intro p s r
  have apart : Catalog.Apart (Site.InUse [.copy 0 "f" 1 "g", .write 0 "f" [.write [1, 2, 3]],
      .write 1 "g" [.write [9, 9]], .write 1 "h" [.write [7]]]) :=
    Site.apart_of_nodup ["f", "g", "h"] (by decide +kernel) (by decide +kernel)
  have clean : ∀ o ∈ (p.play [.write 0 "f" [.write [1, 2, 3]], .write 1 "g" [.write [9, 9]],
      .write 1 "h" [.write [7]]] {}).1, o ≠ .error .tooLarge := by decide +kernel
  have keeps : p.Keeps s 0 "f" [1, 2, 3] := by
    obtain ⟨F, hs, sound⟩ := reached (fun _ here => Site.uses apart (List.mem_cons_of_mem _ here)) clean
    exact keeps_of_read hs sound apart (by decide) (by decide +kernel) (by decide +kernel)
  have moves : p.Moves 0 1 := by decide
  obtain ⟨succeeds, copied⟩ := (copy_transfers p _ 0 "f" 1 "g" (by decide) apart clean).1 [1, 2, 3] keeps
  have after := copied (succeeds.2 (.inl moves))
  exact ⟨after.lands, after.gone.2 moves, (after.others 1 "h" (by decide) (by decide)).1, after.quiet moves⟩

end RowFiles.Plan
