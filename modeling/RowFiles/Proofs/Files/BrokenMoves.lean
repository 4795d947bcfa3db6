/-
Files that are moved while calls are refused.

A copy that moves a file links the destination to the source's row before it records the destination's length and forgets
the source. So a copy that breaks off leaves the file under its old name (`Site.Unmoved`), or under its new one with its
bytes (`Site.File`), and then perhaps under both names, with one row.

- `Plan.Works.linkCopy`: what a copy leaves, wherever it breaks off.
- `Plan.broken_move`: the file can be read afterwards under one of its names. Unless a write to the destination's catalog
  or the deletion of a length in the source's was refused, the copy made again ends with the file under its new name, and
  deleting what is under the new name leaves the file alone that is still under the old one.
- `Plan.broken_move_shared_row`: after such a refusal both names have one row, and the copy made again, or the deletion,
  destroys it.
-/
import RowFiles.Proofs.Files.Refusals

namespace RowFiles

open Run

/-! ## Files on a site -/

namespace Site

variable {p : Plan} {v w : Site} {i j : Nat} {k src dst : Key} {n : UInt64} {t : Table Column} {r : Key}

/-- a file has the length `n`, and the cells that the row `r` has in `t` -/
structure File (p : Plan) (i : Nat) (k : Key) (n : UInt64) (t : Table Column) (r : Key) (v : Site) : Prop where
  sane : v.Sane p
  known : v.Knows i k n
  cells : ∀ c, (v.yard.row i k).bind (v.yard.shared.get · c) = t.get r c

/-- a file is under its old name, and its row is not that of the new one -/
structure Unmoved (p : Plan) (i : Nat) (src : Key) (j : Nat) (dst : Key) (n : UInt64) (t : Table Column) (r : Key)
    (v : Site) : Prop extends File p i src n t r v where
  apart : ∀ {q}, v.yard.row i src = some q → v.yard.row j dst ≠ some q

theorem File.grows : Grows p (File p i k n t r) where
  sane := File.sane
  drawn h := ⟨h.sane.drawn, h.known, h.cells⟩
  link {v m l w} h unlinked := by
    refine ⟨h.sane.drawn.link m l ⟨w, _, Nat.lt_succ_self _, rfl⟩, h.known, fun c => ?_⟩
    have before := h.cells c
    rw [row_link]
    split_ifs with here
    · obtain ⟨rfl, rfl⟩ := here
      rw [unlinked] at before
      exact h.sane.empty.trans before
    · exact before

/-- nothing changes for a file but how its length is known -/
theorem File.elsewhere (h : File p i k n t r v) (same : Elsewhere j v w) (known : w.Knows i k n) :
    File p i k n t r w := by
  refine ⟨h.sane.elsewhere same, known, fun c => ?_⟩
  rw [same.yard]
  exact h.cells c

theorem File.unlink (h : File p i k n t r v) (other : j ≠ i) (l : Key) : File p i k n t r (v.unlink j l) := by
  refine ⟨h.sane.unlink j l, h.known, fun c => ?_⟩
  rw [row_unlink, if_neg fun here => other here.1]
  exact h.cells c

namespace Unmoved

theorem elsewhere {m : Nat} (h : Unmoved p i src j dst n t r v) (same : Elsewhere m v w) (known : w.Knows i src n) :
    Unmoved p i src j dst n t r w := by
  refine ⟨h.toFile.elsewhere same known, ?_⟩
  rw [same.yard]
  exact h.apart

theorem grows (differ : i ≠ j) : Grows p (Unmoved p i src j dst n t r) where
  sane h := h.sane
  drawn h := ⟨File.grows.drawn h.toFile, h.apart⟩
  link {v m l w} h unlinked := by
    refine ⟨File.grows.link h.toFile unlinked, fun {q} there there' => ?_⟩
    rw [row_link] at there there'
    split_ifs at there there' with here here' here'
    · exact differ (here.1.symm.trans here'.1)
    · exact h.sane.row_ne (there'.trans there.symm)
    · exact h.sane.row_ne (there.trans there'.symm)
    · exact h.apart there there'

/-- a file that is not moved yet stays, however far the removal of the other one gets -/
theorem spares (differ : i ≠ j) : Spares p j dst (Unmoved p i src j dst n t r) where
  toGrows := grows differ
  drop {v q} h row := by
    refine ⟨⟨h.sane.drop q, h.known, fun c => ?_⟩, h.apart⟩
    rw [← h.cells c]
    change (v.yard.row i src).bind (fun q' => (v.yard.shared.delete q).get q' c) = _
    cases there : v.yard.row i src with
    | none => rfl
    | some q' =>
      have other : q ≠ q' := fun same => h.apart there (same ▸ row)
      exact (Table.get_delete ..).trans (if_neg other)
  unlink {v} h := by
    refine ⟨h.toFile.unlink differ.symm dst, fun {q} _ there => ?_⟩
    rw [row_unlink, if_pos ⟨rfl, rfl⟩] at there
    cases there
  elsewhere h same := h.elsewhere same (h.known.elsewhere same differ)

/-- the new name is linked to the row -/
theorem linked (h : Unmoved p i src j dst n t r v) {q : Key} (row : v.yard.row i src = some q) {w : Site}
    (same : Elsewhere j (v.link j dst q) w) (known : w.Knows j dst n) : File p j dst n t r w := by
  have here : (v.link j dst q).yard.row j dst = some q := by rw [row_link, if_pos ⟨rfl, rfl⟩]
  have cells (c : Column) : v.yard.shared.get q c = t.get r c := by
    rw [← h.cells c, row]
    rfl
  refine ⟨(h.sane.link j dst (h.sane.rows row)).elsewhere same, known, fun c => ?_⟩
  rw [same.yard, here]
  exact cells c

end Unmoved

/-- what is absent stays so, however far the removal of another directory's file gets -/
theorem absent_spares (differ : i ≠ j) : Spares p j dst fun v => v.Sane p ∧ v.Absent i src where
  sane h := h.1
  drawn h := ⟨h.1.drawn, h.2⟩
  link h _ := ⟨h.1.drawn.link _ _ ⟨_, _, Nat.lt_succ_self _, rfl⟩, h.2⟩
  drop h _ := ⟨h.1.drop _, h.2⟩
  unlink h := ⟨h.1.unlink j dst, h.2⟩
  elsewhere h same := ⟨h.1.elsewhere same, h.2.elsewhere same differ⟩

end Site

/-! ## Copies that break off -/

/-- a refusal after which a file that is moved is left under both names: its new length is not written, or the old one not
deleted -/
def Doubles (i j : Nat) : Option (Place × Call) → Prop
  | some (.names m, .put ..) => m = j
  | some (.names m, .delete _) => m = i
  | _ => False

instance (i j : Nat) : DecidablePred (Doubles i j)
  | some (.names m, .put ..) => inferInstanceAs (Decidable (m = j))
  | some (.names m, .delete _) => inferInstanceAs (Decidable (m = i))
  | some (.names _, .get ..) | some (.names _, .deleteColumn ..) | some (.names _, .hasKey _) | some (.names _, .values _)
  | some (.names _, .keys) | some (.names _, .sync) | some (.links _, _) | some (.rows, _) | none =>
    inferInstanceAs (Decidable False)

namespace Plan.Works

variable {σ : Type} {p : Plan} {i j : Nat} {d e : Directory (Run σ)} {l m : LinkTable (Run σ)} {inner outer : Store (Run σ)}
  {R : Option (Place × Call) → σ → Site → Prop} {may : Error → Prop} {v : Site} {src dst : Key} {n : UInt64}
  {t : Table Column} {r : Key}

theorem linkCopy_eq (source : p.Works i d l inner R may) (dest : p.Works j e m outer R may) (moves : p.Moves i j)
    (src dst : Key) :
    Directory.linkCopy d src e dst = (do
      let length ← d.length src
      e.removeIfPresent dst
      let physical ← l.resolve src
      m.link dst physical
      e.catalog.setLength dst length true
      d.catalog.delete src
      l.unlink src) := by
  obtain ⟨fast, fast', _, _, same⟩ := moves
  have sourceLinks : d.data.linker = some l.linker := by rw [source.data]; rfl
  have destLinks : e.data.linker = some m.linker := by rw [dest.data]; rfl
  have widths : d.data.width = e.data.width := by
    calc d.data.width = inner.width := by rw [source.data]; rfl
      _ = outer.width := by rw [source.width, dest.width, same]
      _ = e.data.width := by rw [dest.data]; rfl
  apply Directory.linkCopy_linked _ _ sourceLinks destLinks widths
  · rw [source.settings, fast]
  · rw [dest.settings, fast']

/-- **What a copy leaves** that moves a file, wherever it breaks off. -/
theorem linkCopy (source : p.Works i d l inner R may) (dest : p.Works j e m outer R may) (moves : p.Moves i j)
    (differ : i ≠ j) (h : v.Unmoved p i src j dst n t r) :
    Breaks R (Directory.linkCopy d src e dst) v (fun _ w => w.File p j dst n t r ∧ w.Absent i src) fun q x w =>
      Refused may q x ∧
        (w.Unmoved p i src j dst n t r ∨ w.File p j dst n t r ∧ (w.Absent i src ∨ Doubles i j q)) := by
  have spares : Site.Spares p j dst (Site.Unmoved p i src j dst n t r) := Site.Unmoved.spares differ
  rw [source.linkCopy_eq dest moves]
  refine Breaks.bind (source.length_known h.known) ?_ fun q x w hw => ⟨hw.1, .inl (hw.2 ▸ h)⟩
  rintro _ v₁ ⟨rfl, known, same⟩
  have h₁ := h.elsewhere same known
  refine Breaks.bind (dest.removedIfPresent spares h₁) ?_ fun q x w hw => ⟨hw.1, .inl hw.2⟩
  intro _ v₂ h₂
  refine Breaks.bind (source.resolve spares.toGrows src h₂) ?_ fun q x w hw => ⟨hw.1, .inl hw.2⟩
  rintro q v₃ ⟨h₃, row⟩
  refine (dest.link dst q v₃).next ?_ fun x refused => ⟨refused_some _ refused, .inl h₃⟩
  -- both names have one row from here on, and the new one has a length as soon as that is set
  refine Breaks.bind (dest.recorded dst _ _) ?_ ?_
  · rintro _ v₄ ⟨known', same'⟩
    have landed := h₃.linked row same' known'
    refine Breaks.bind (source.forgotten src v₄) ?_ ?_
    · rintro _ v₅ ⟨absent, same''⟩
      have stays := landed.elsewhere same'' (landed.known.elsewhere same'' differ.symm)
      refine (source.unlink src v₅).last ?_ fun x refused => ⟨refused_some _ refused, .inr ⟨stays, .inl absent⟩⟩
      exact ⟨stays.unlink differ src, absent⟩
    · rintro q x v₅ ⟨refused, either, same''⟩
      have stays := landed.elsewhere same'' (landed.known.elsewhere same'' differ.symm)
      refine ⟨refused, .inr ⟨stays, either.imp id ?_⟩⟩
      rintro ⟨k, rfl⟩
      rfl
  · rintro q x v₄ ⟨⟨k, c, y, rfl⟩, why, known', same'⟩
    exact ⟨refused_some _ why, .inr ⟨h₃.linked row same' known', .inr rfl⟩⟩

/-- a copy of a file that is absent finds nothing, and changes nothing -/
theorem linkCopy_absent (source : p.Works i d l inner R may) (dest : p.Works j e m outer R may) (moves : p.Moves i j)
    (absent : v.Absent i src) :
    Breaks R (Directory.linkCopy d src e dst) v (fun _ _ => False) fun q x w =>
      (x = .notFound src ∨ Refused may q x) ∧ w = v := by
  rw [source.linkCopy_eq dest moves]
  exact Breaks.bind (source.length_absent absent) (fun _ _ none => none.elim) fun _ _ _ hw => hw

/-- a copy between directories that move files ends as the move does -/
theorem copy {P : Unit → Site → Prop} {E : Option (Place × Call) → Error → Site → Prop}
    (source : p.Works i d l inner R may) (dest : p.Works j e m outer R may) (differ : i ≠ j)
    (h : Breaks R (Directory.linkCopy d src e dst) v P E) (passes : ∀ q x w, E q x w → ∀ why, x ≠ .fastCopy why) :
    Breaks R (Directory.copy d src e dst) v P E := by
  have two : ¬ (d.identity = e.identity ∧ src = dst) := by
    rw [source.identity, dest.identity]
    exact fun same => differ same.1
  rw [Directory.copy, if_neg two]
  refine Breaks.passes h fun q x w hx => ?_
  have plain := passes q x w hx
  cases x with
  | fastCopy why => exact absurd rfl (plain why)
  | _ => rfl

end Plan.Works

/-! ## Files that are read -/

namespace Plan

variable {p : Plan} {i j : Nat} {k src dst : Key} {n : UInt64} {t : Table Column} {r : Key} {s v : Site} {b : Bytes}

/-- no reason is given -/
def noReason (_ : Error) : Prop := False

/-- a site has a file, with the row of its name in a table -/
def Stores (p : Plan) (i : Nat) (k : Key) (n : UInt64) (s : Site) (t : Table Column) : Prop :=
  ∃ v, Site.Calm none s v ∧ v.File p i k n t k

theorem stores_cell (is_linked : p.linked i = true) (c : Column) (t : Table Column) :
    Yields (p.Stores i k n) ((p.directory i).data.get k c) t fun a u => a = t.get k c ∧ u = t := by
  have laws := works is_linked noReason
  refine yields_behind fun v file => ?_
  rw [laws.data]
  refine Breaks.yields (E := fun q e _ => Refused noReason q e) ?_ calm fun _ _ => not_refused_none
  refine Breaks.bind (laws.resolve Site.File.grows k file) ?_ fun _ _ _ hw => hw.1
  rintro q w ⟨file, row⟩
  have cell := file.cells c
  rw [row] at cell
  exact (laws.cell q c w).last ⟨t, file, cell, rfl⟩ fun _ => refused_some _

theorem stores_length (is_linked : p.linked i = true) (t : Table Column) :
    Yields (p.Stores i k n) ((p.directory i).length k) t fun a u => a = n ∧ u = t := by
  refine yields_behind fun v file => ?_
  have known := (works is_linked noReason).length_known file.known
  refine (known.yields calm fun _ _ h => not_refused_none h.1).mono ?_
  rintro _ w ⟨rfl, known, same⟩
  exact ⟨t, file.elsewhere same known, rfl, rfl⟩

/-- a reader of a file, beside a writer -/
theorem stores_reader (is_linked : p.linked i = true) (length : UInt64) :
    ((p.directory i).lentReader k length).Laws fun (q : Site × Room) (y : Layer ReaderState WriterState) =>
      p.Stores i k n q.1 y.beneath ∧ q.2 = (y.held, y.rest) where
  cell c y := by
    intro q hq
    obtain ⟨stored, room⟩ := hq
    obtain ⟨_, stored', _, ran, rfl, rfl⟩ := stores_cell is_linked c y.beneath q.1 stored
    exact ⟨y, ⟨stored', room⟩, _, ran, rfl, rfl⟩
  read y := fun _ hq => ⟨y, hq, _, rfl, congrArg Prod.fst hq.2, rfl⟩
  write x y := fun _ hq => ⟨{ y with held := x }, ⟨hq.1, congrArg (fun room : Room => (x, room.2)) hq.2⟩, (), rfl, rfl⟩

/-- **A file that a site has can be read**, even if another name has its row. -/
theorem readable_of_file (is_linked : p.linked i = true) (like : s.Like v)
    (file : v.File p i k (UInt64.ofNat b.length) t r) (small : b.length < UInt64.size)
    (bytes : Layout.read (p.width i) t r 0 b.length = b) : p.Readable s i k b := by
  obtain ⟨n, hn⟩ : ∃ n, n = UInt64.ofNat b.length := ⟨_, rfl⟩
  obtain ⟨u, hu⟩ : ∃ u, u = Table.empty.adopt k t r := ⟨_, rfl⟩
  have same (c : Column) : u.get k c = t.get r c := by rw [hu, Table.get_adopt, if_pos rfl]
  have stored : p.Stores i k n s u := by
    rw [← hn] at file
    refine ⟨v, ⟨rfl, like⟩, file.sane, file.known, fun c => ?_⟩
    rw [same]
    exact file.cells c
  have whole : Layout.read (p.width i) u k 0 b.length = b := by rwa [Layout.read_congr same]
  have width : ((p.directory i).lentReader k n).rows.width = p.width i := p.width_directory i
  refine ⟨?_, small, fun offset len short within => ?_⟩
  · have answers : Yields (p.Stores i k n) (p.act (.length i k)) u fun a _ => a = .length n :=
      Yields.map ((stores_length is_linked u).mono fun _ _ h => congrArg _ h.1)
    obtain ⟨_, _, _, ran, rfl⟩ := answers s stored
    rw [← hn]
    exact ran
  · have stretch : Yields (p.Stores i k n) ((p.directory i).withReader k fun x => x.readBytes offset len) u fun a _ =>
        a = Layout.slice b offset.toNat len := by
      rw [Directory.Laws.withReader_eq]
      refine (stores_length is_linked u).next ?_
      have reads := Reader.readBytes_eq (v := ⟨{}, u, {}⟩) (stores_reader (n := n) is_linked n)
        (by rw [width]; exact p.positive i) nofun offset short (.inr (Nat.lt_of_le_of_lt within small))
      refine Ends.lend reads (fun s hs => ⟨hs, rfl⟩) ?_
      rintro o w ⟨a, rfl, rfl, left⟩
      refine ⟨w.beneath, fun q hq => hq.1, _, rfl, ?_⟩
      rw [width]
      exact Layout.read_of_whole (p.positive i) whole within
    have answers : Yields (p.Stores i k n) (p.act (.read i k offset len)) u fun a _ =>
        a = .bytes (Layout.slice b offset.toNat len) := Yields.map (stretch.mono fun _ _ h => congrArg _ h)
    obtain ⟨_, _, _, ran, rfl⟩ := answers s stored
    exact ran

/-- a file that is absent is not there -/
theorem has_absent (is_linked : p.linked i = true) (like : s.Like v) (absent : v.Absent i k) :
    p.answer s (.has i k) = .ok (.flag false) := by
  have asked := (works is_linked noReason).has (v := v) (k := k)
  have answers : Yields (Site.Calm none) (p.act (.has i k)) v fun a _ => a = .flag false :=
    Yields.map ((asked.yields calm fun _ _ h => not_refused_none h.1).mono fun _ _ h => congrArg _ (h.1 absent))
  obtain ⟨_, _, _, ran, rfl⟩ := answers s ⟨rfl, like⟩
  exact ran

/-! ## What a failed copy leaves -/

/-- a file that a site keeps is under its old name, before it is moved -/
theorem unmoved_of_stocked {U : Key → Prop} {F : Stocks} (hs : Stocked p.Shown U s F) (moves : p.Moves i j)
    (differ : i ≠ j) (found : (F i).lengths[src]? = some n) :
    s.Like s ∧ s.Unmoved p i src j dst n (F i).data src := by
  obtain ⟨V, ⟨catalogs, names, wired, _⟩, keeps⟩ := hs
  have is_linked : p.linked i = true := moves.2.2.1
  have held : s.catalogs i = (V i).catalog := congrFun catalogs i
  have stored : s.names i = (V i).names := congrFun names i
  refine ⟨⟨s.yard.probe, wired.quiet, rfl⟩, ⟨⟨wired.legible, wired.drawn, fun there => ?_⟩, ?_, fun c => ?_⟩, ?_⟩
  · obtain ⟨_, _, row⟩ := wired.covered there
    exact wired.drawn row
  · rw [Site.Knows, held, stored]
    cases known : (V i).catalog.lengths[src]? with
    | some m =>
      have same : (F i).lengths[src]? = some m := (keeps i).lengths.shadow src m trivial known
      exact .inl (same.symm.trans found)
    | none =>
      refine .inr ⟨rfl, ?_⟩
      rw [(keeps i).lengths.get_of_absent trivial known, found]
      rfl
  · rw [← wired.cells i is_linked, Function.comp_apply, (keeps i).data]
  · intro q row row'
    exact differ (wired.apart row row').1

/-- what is left of a file after a copy has failed: the copy made again lands it, and deleting what is under its new name
leaves it alone, if it is still under the old one -/
structure Survives (p : Plan) (i : Nat) (src : Key) (j : Nat) (dst : Key) (b : Bytes) (s : Site) : Prop where
  again : (p.act (.copy i src j dst) s).1 = .ok .done ∨ (p.act (.copy i src j dst) s).1 = .error (.notFound src)
  lands : p.Readable (p.act (.copy i src j dst) s).2 j dst b
  spared : p.answer (p.act (.delete j dst) s).2 (.has i src) = .ok (.flag true) →
    p.Readable (p.act (.delete j dst) s).2 i src b

/-- what is kept when a file is deleted, is kept when the site is asked to delete it -/
theorem act_delete {I : Site → Prop} (is_linked : p.linked j = true) (spares : Site.Spares p j dst I) (like : s.Like v)
    (h : I v) : ∃ w, (p.act (.delete j dst) s).2.Like w ∧ I w := by
  have deleted := ((works is_linked noReason).deletion spares h).ends calm
  have kept : Ends (Site.Calm none) (p.act (.delete j dst)) v fun _ w => I w := by
    refine Ends.map_answer (Ends.mono deleted fun _ w hw => ?_)
    rcases hw with ⟨_, _, kept⟩ | ⟨_, _, kept⟩
    · exact kept
    · exact kept
  obtain ⟨w, ⟨_, like'⟩, kept⟩ := kept s ⟨rfl, like⟩
  exact ⟨w, like', kept⟩

section Survival

variable (moves : p.Moves i j) (differ : i ≠ j) (like : s.Like v) (small : b.length < UInt64.size)
  (bytes : Layout.read (p.width i) t r 0 b.length = b)

include moves differ like small bytes

/-- a file that is not moved yet is moved by the copy made again -/
theorem survives_unmoved (h : v.Unmoved p i src j dst (UInt64.ofNat b.length) t r) : p.Survives i src j dst b s := by
  obtain ⟨_, _, is_linked, is_linked', width⟩ := id moves
  have source := works is_linked noReason
  have dest := works is_linked' noReason
  have copied := source.copy dest differ (source.linkCopy dest moves differ h) fun _ _ _ hw => hw.1.2.elim
  have again : Yields (Site.Calm none) (p.act (.copy i src j dst)) v fun a w =>
      a = .done ∧ w.File p j dst (UInt64.ofNat b.length) t r :=
    Yields.map ((copied.yields calm fun _ _ h => not_refused_none h.1).mono fun _ _ hw => ⟨rfl, hw.1⟩)
  obtain ⟨_, ⟨_, like'⟩, _, ran, rfl, file⟩ := again s ⟨rfl, like⟩
  obtain ⟨_, like'', kept⟩ := act_delete is_linked' (Site.Unmoved.spares differ) like h
  refine ⟨.inl ran, ?_, fun _ => ?_⟩
  · exact readable_of_file is_linked' like' file small (width ▸ bytes)
  · exact readable_of_file is_linked like'' kept.toFile small bytes

/-- a file that is moved is not found under its old name -/
theorem survives_moved (file : v.File p j dst (UInt64.ofNat b.length) t r) (absent : v.Absent i src) :
    p.Survives i src j dst b s := by
  obtain ⟨_, _, is_linked, is_linked', width⟩ := id moves
  have source := works is_linked noReason
  have dest := works is_linked' noReason
  have missing : Breaks Site.Calm (Directory.copy (p.directory i) src (p.directory j) dst) v (fun _ _ => False)
      fun q x w => (x = .notFound src ∨ Refused noReason q x) ∧ w = v := by
    apply source.copy dest differ (source.linkCopy_absent dest moves absent)
    rintro q x w ⟨rfl | refused, _⟩
    · exact nofun
    · exact refused.2.elim
  have again : Ends (Site.Calm none) (p.act (.copy i src j dst)) v fun o w => o = .error (.notFound src) ∧ w = v := by
    refine Ends.map (Ends.mono (missing.ends calm) fun o w hw => ?_)
    rcases hw with ⟨_, _, none⟩ | ⟨x, rfl, rfl | refused, rfl⟩
    · exact none.elim
    · exact ⟨rfl, rfl⟩
    · exact refused.2.elim
  obtain ⟨_, ⟨_, like'⟩, ran, rfl⟩ := again s ⟨rfl, like⟩
  obtain ⟨_, like'', _, absent'⟩ := act_delete is_linked' (Site.absent_spares differ) like ⟨file.sane, absent⟩
  refine ⟨.inr ran, readable_of_file is_linked' like' file small (width ▸ bytes), fun there => ?_⟩
  have gone := (has_absent is_linked like'' absent').symm.trans there
  injection gone with gone
  injection gone with gone
  cases gone

end Survival

/-- **A failed copy does not cost the file.** Whatever calls are refused while a file is moved, the file can be read
afterwards under one of its names. Unless the call that was refused is a write to the destination's catalog or the deletion
of a length in the source's, the copy made again on the working site ends with the file under its new name, and deleting
what is under the new name leaves the file alone that is still under the old one. -/
theorem broken_move (p : Plan) (steps : List Site.Step) (i : Nat) (src : Key) (j : Nat) (dst : Key) (b : Bytes)
    (moves : p.Moves i j) (differ : i ≠ j) (clean : ∀ o ∈ (p.play steps {}).1, o ≠ .error .tooLarge)
    (refuse : Refusals) (plain : ∀ e, refuse.May e → ∀ why, e ≠ .fastCopy why) :
    let s := (p.play steps {}).2
    let r := Directory.copy (p.brittle refuse i) src (p.brittle refuse j) dst { site := s }
    p.Readable s i src b →
      (r.1 = .ok () → p.Readable r.2.site j dst b) ∧
      (∀ e, r.1 = .error e →
        (p.Readable r.2.site i src b ∨ p.Readable r.2.site j dst b) ∧
        (¬ Doubles i j r.2.refused → p.Survives i src j dst b r.2.site)) := by
  intro s r readable
  obtain ⟨F, hs, sound⟩ := play_reaches (p.stocked_empty _) (Sound.empty p) clean
  obtain ⟨_, _, is_linked, is_linked', width⟩ := id moves
  have source := works_brittle refuse is_linked
  have dest := works_brittle refuse is_linked'
  obtain ⟨length, small, bytes⟩ := (readable_iff hs sound).1 readable
  have bytes' : Layout.read (p.width j) (F i).data src 0 b.length = b := width ▸ bytes
  obtain ⟨like, unmoved⟩ : s.Like s ∧ s.Unmoved p i src j dst (UInt64.ofNat b.length) (F i).data src :=
    unmoved_of_stocked hs moves differ length
  have broken := source.copy dest differ (source.linkCopy dest moves differ unmoved) fun q x w hw =>
    plain x hw.1.2
  rcases broken { site := s } ⟨rfl, like⟩ with ⟨_, w, done, ⟨_, like⟩, file, -⟩ | ⟨x, q, w, failed, ⟨here, like⟩, -, left⟩
  · constructor
    · intro _
      exact readable_of_file is_linked' like file small bytes'
    · intro e failed
      cases done.symm.trans failed
  · constructor
    · intro done
      cases done.symm.trans failed
    · intro _ _
      rcases left with unmoved | ⟨file, absent | doubles⟩
      · refine ⟨.inl (readable_of_file is_linked like unmoved.toFile small bytes), fun _ => ?_⟩
        exact survives_unmoved moves differ like small bytes unmoved
      · refine ⟨.inr (readable_of_file is_linked' like file small bytes'), fun _ => ?_⟩
        exact survives_moved moves differ like small bytes file absent
      · exact ⟨.inr (readable_of_file is_linked' like file small bytes'), fun single => absurd (here ▸ doubles) single⟩

/-- the new link is refused -/
theorem broken_move_unlinked :
    let p := simple (fun _ => true) (fun _ => 2) fun _ => Nat.two_pos
    let s := (p.play [.write 0 "f" [.write [1, 2, 3]]] {}).2
    let refuse := Refusals.once 2 (.backend "down")
    let r := Directory.copy (p.brittle refuse 0) "f" (p.brittle refuse 1) "g" { site := s }
    r.1 = .error (.backend "down") ∧ p.Survives 0 "f" 1 "g" [1, 2, 3] r.2.site := by
  intro p s refuse r
  have clean : ∀ o ∈ (p.play [.write 0 "f" [.write [1, 2, 3]]] {}).1, o ≠ .error .tooLarge := by decide +kernel
  have plain : ∀ e, refuse.May e → ∀ why, e ≠ .fastCopy why := by
    rintro e ⟨n, place, q, refused⟩ why same
    subst same
    simp [refuse, Refusals.once] at refused
  have readable : p.Readable s 0 "f" [1, 2, 3] := by
    obtain ⟨F, hs, sound⟩ := play_reaches (p.stocked_empty _) (Sound.empty p) clean
    exact readable_of_read hs sound (by decide) (by decide +kernel) (by decide +kernel)
  have failed : r.1 = .error (.backend "down") := by decide +kernel
  have single : ¬ Doubles 0 1 r.2.refused := by decide +kernel
  obtain ⟨_, fails⟩ := broken_move p _ 0 "f" 1 "g" [1, 2, 3] (by decide) (by decide) clean refuse plain readable
  exact ⟨failed, (fails _ failed).2 single⟩

/-- the write of the new length is refused: both names have one row, which the copy made again destroys and then reports as
moved, and which a deletion of the new name takes from the old one -/
theorem broken_move_shared_row :
    let p := simple (fun _ => true) (fun _ => 2) fun _ => Nat.two_pos
    let s := (p.play [.write 0 "f" [.write [1, 2, 3]]] {}).2
    let refuse := Refusals.once 3 (.backend "down")
    let r := Directory.copy (p.brittle refuse 0) "f" (p.brittle refuse 1) "g" { site := s }
    let again := p.act (.copy 0 "f" 1 "g") r.2.site
    let cleared := p.act (.delete 1 "g") r.2.site
    p.answer s (.read 0 "f" 0 3) = .ok (.bytes [1, 2, 3]) ∧ r.1 = .error (.backend "down") ∧
      (again.1 = .ok .done ∧ ¬ p.Readable again.2 1 "g" [1, 2, 3] ∧ ¬ p.Readable again.2 0 "f" [1, 2, 3]) ∧
      (p.answer cleared.2 (.has 0 "f") = .ok (.flag true) ∧ ¬ p.Readable cleared.2 0 "f" [1, 2, 3]) := by
  intro p s refuse r again cleared
  have lost {t : Site} {i : Nat} {name : Key} (zeros : p.answer t (.read i name 0 3) = .ok (.bytes [0, 0, 0])) :
      ¬ p.Readable t i name [1, 2, 3] := by
    intro readable
    have bytes := zeros.symm.trans (readable.reads 0 3 (by decide) (by decide))
    cases bytes
  refine ⟨by decide +kernel, by decide +kernel, ⟨by decide +kernel, lost (by decide +kernel), fun readable => ?_⟩,
    by decide +kernel, lost (by decide +kernel)⟩
  have gone : p.answer again.2 (.length 0 "f") = .error (.notFound "f") := by decide +kernel
  cases gone.symm.trans readable.length

end Plan

end RowFiles
