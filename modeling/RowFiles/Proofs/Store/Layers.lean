/-
Layers: something that keeps state of its own over rows that serve a table. Caches, catalogs and readers are layers.
-/
import RowFiles.Proofs.Store.Tables

namespace RowFiles

open Run

/-- what the state of a layer shows: what the layer holds, the table beneath, and the rest that a statement is about -/
structure Layer (κ ρ : Type) where
  held : κ
  beneath : Table Column
  rest : ρ

/-- what a layer builds on: the rows beneath serve a table, and what it holds is a part to read and write -/
structure Layered {σ κ ρ : Type} (rows : Rows (Run σ)) (state : Part (Run σ) κ) (R : σ → Layer κ ρ → Prop)
    (scan : List Bytes → List Bytes → Prop) (failing : Call → Prop) : Prop where
  inner : ∀ x r, rows.Serves (fun s t => R s ⟨x, t, r⟩) scan failing
  read : ∀ v, Yields R state.read v fun x w => x = v.held ∧ w = v
  write : ∀ x v, Yields R (state.write x) v fun _ w => w = { v with held := x }

namespace Layered

variable {σ κ ρ : Type} {rows : Rows (Run σ)} {state : Part (Run σ) κ} {R : σ → Layer κ ρ → Prop}
  {scan : List Bytes → List Bytes → Prop} {failing : Call → Prop}

theorem modify (laws : Layered rows state R scan failing) (f : κ → κ) (v : Layer κ ρ) :
    Yields R (state.modify f) v fun _ w => w = { v with held := f v.held } := by
  refine (laws.read v).next ?_
  exact laws.write _ _

/-- a call of the rows beneath changes nothing but the table -/
theorem beneath {α : Type} {x : Run σ α} {v : Layer κ ρ} {may : Prop} {P : α → Table Column → Prop}
    (h : Tries (fun s t => R s { v with beneath := t }) x v.beneath may P) :
    Tries R x v may fun a w => ∃ t, P a t ∧ w = { v with beneath := t } :=
  Tries.widen (fun t => { v with beneath := t }) (h.mono fun _ t ht => ⟨t, ht, rfl⟩)

end Layered

end RowFiles
