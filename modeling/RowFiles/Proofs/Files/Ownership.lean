/-
Who owns the rows of a shared table.

Where the data of all directories of a site lie behind links in one table, each row of the table is the row of one file
that is there, and no two files that have bytes share one (`Plan.Owned`). Copies that move files, removals and new files
under old names all keep this.

- `Plan.owned_of_stocked`: it holds of every site that shows stocks, since no two links lead to one row, and what has no
  length has no cells.
- `Plan.rows_owned`: so it holds after any run, and a further step changes no file that it does not touch.
-/
import RowFiles.Proofs.Files.Answers

namespace RowFiles.Plan

variable (p : Plan) {U : Key → Prop} {s : Site} {F : Stocks}

/-- a file is there, and has bytes -/
def Filled (s : Site) (i : Nat) (name : Key) : Prop := ∃ n ≠ 0, p.answer s (.length i name) = .ok (.length n)

/-- a file is there -/
def Live (s : Site) (i : Nat) (name : Key) : Prop := ∃ n, p.answer s (.length i name) = .ok (.length n)

/-- the rows of the shared table and the files that are there belong to each other -/
structure Owned (s : Site) : Prop where
  /-- no two files that have bytes share a row -/
  unshared : ∀ {i j k l}, p.Filled s i k → p.Filled s j l → (i, k) ≠ (j, l) →
    ∃ q r, s.yard.row i k = some q ∧ s.yard.row j l = some r ∧ q ≠ r
  /-- a row that has a cell is the row of one file that is there -/
  owner : ∀ {q c v}, s.yard.shared.get q c = some v →
    ∃! file : Nat × Key, p.Live s file.1 file.2 ∧ s.yard.row file.1 file.2 = some q

variable {p}

/-- a file that has bytes has a row -/
theorem row_of_filled (linked : ∀ i, p.linked i = true) (hs : Stocked p.Shown U s F) (sound : p.Sound F) {i : Nat}
    {name : Key} (filled : p.Filled s i name) : ∃ q, s.yard.row i name = some q := by
  obtain ⟨n, some, length⟩ := filled
  obtain ⟨c, v, cell⟩ := (sound i).filled ((answer_length_iff hs sound).1 length) some
  obtain ⟨V, ⟨_, _, wired, _⟩, keeps⟩ := hs
  have behind := wired.cells i (linked i) name c
  rw [Function.comp_apply, (keeps i).data, cell] at behind
  obtain ⟨q, row, _⟩ := Option.bind_eq_some_iff.1 behind.symm
  exact ⟨q, row⟩

/-- **Rows and files belong to each other** on every site that shows stocks. -/
theorem owned_of_stocked (linked : ∀ i, p.linked i = true) (hs : Stocked p.Shown U s F) (sound : p.Sound F) :
    p.Owned s := by
  have shown := hs
  obtain ⟨V, ⟨_, _, wired, _⟩, keeps⟩ := shown
  constructor
  · intro i j k l first second other
    obtain ⟨q, row⟩ := row_of_filled linked hs sound first
    obtain ⟨r, row'⟩ := row_of_filled linked hs sound second
    refine ⟨q, r, row, row', fun same => ?_⟩
    subst same
    obtain ⟨rfl, rfl⟩ := wired.apart row row'
    exact other rfl
  · intro q c v cell
    obtain ⟨i, k, row⟩ := wired.covered cell
    refine ⟨(i, k), ⟨?_, row⟩, fun file owns => ?_⟩
    · have behind := wired.get_row (linked i) row c
      rw [Function.comp_apply, (keeps i).data, cell] at behind
      cases length : (F i).lengths[k]? with
      | none =>
        rw [(sound i).absent length] at behind
        cases behind
      | some n => exact ⟨n, (answer_length_iff hs sound).2 length⟩
    · obtain ⟨same, same'⟩ := wired.apart owns.2 row
      exact Prod.ext same same'

/-- **No shared and no leaked rows.** After any run of sessions, removals and copies of both kinds, rows and files belong to
each other, and so a further step leaves every file alone that it does not touch. -/
theorem rows_owned (p : Plan) (linked : ∀ i, p.linked i = true) (steps : List Site.Step)
    (unlisted : ∀ step ∈ steps, ∀ i, step ≠ .list i) (clean : ∀ o ∈ (p.play steps {}).1, o ≠ .error .tooLarge) :
    let s := (p.play steps {}).2
    p.Owned s ∧ ∀ step, (∀ i, step ≠ .list i) → (p.act step s).1 ≠ .error .tooLarge →
      ∀ i name, (i, name) ∉ step.touches → p.Alike s (p.act step s).2 i name := by
  intro s
  obtain ⟨F, hs, sound⟩ := reached (fun step here => uses_of_unlisted (unlisted step here)) clean
  refine ⟨owned_of_stocked linked hs sound, fun step plain done i name other => ?_⟩
  have uses := uses_of_unlisted plain
  have fits : p.Fits step F := by
    by_contra unfit
    exact done (act_refused sound uses unfit s hs)
  obtain ⟨_, hr⟩ := act_shown sound uses fits hs
  exact alike hs sound hr (sound.expect step fits) (expect_same other)

/-- a file is moved over another, made again under its old name, and then the other is removed -/
theorem rows_owned_after_move :
    let p := simple (fun _ => true) (fun _ => 2) fun _ => Nat.two_pos
    let s := (p.play [.write 0 "f" [.write [1, 2, 3]], .write 1 "g" [.write [9]], .copy 0 "f" 1 "g",
      .write 0 "f" [.write [5]]] {}).2
    (∃ q r, s.yard.row 0 "f" = some q ∧ s.yard.row 1 "g" = some r ∧ q ≠ r) ∧
      p.Alike s (p.act (.delete 1 "g") s).2 0 "f" := by
  intro p s
  obtain ⟨owned, others⟩ := rows_owned p (fun _ => rfl) [.write 0 "f" [.write [1, 2, 3]], .write 1 "g" [.write [9]],
    .copy 0 "f" 1 "g", .write 0 "f" [.write [5]]] (by simp) (by decide +kernel)
  have first : p.Filled s 0 "f" := ⟨1, by decide, by decide +kernel⟩
  have second : p.Filled s 1 "g" := ⟨3, by decide, by decide +kernel⟩
  exact ⟨owned.unshared first second (by decide), others (.delete 1 "g") nofun (by decide +kernel) 0 "f" (by decide)⟩

end RowFiles.Plan
