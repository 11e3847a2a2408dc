import LaserCutter.Proofs.Number.Operands
import LaserCutter.Proofs.Number.RunningSums

/-!
# Sums that grow

Running sums that end finite are finite all along, and as long as nothing negative is added they
never decrease.
-/

namespace LaserCutter.Number

open Float.Model (Format UnpackedFloat)
open Float.Model.UnpackedFloat

variable {x y : Float}

/-- Adding what is not negative does not lead back. -/
theorem float_le_add (finite : isFinite (x + y)) (nonneg : 0 ≤ y) : x ≤ x + y := by
  obtain ⟨finiteX, finiteY⟩ := isFinite_of_add finite
  obtain ⟨a, standsX, _⟩ := exists_stands finiteX
  obtain ⟨b, standsY, _⟩ := exists_stands finiteY
  have nonnegB := (float_le_iff_of_stands stands_zero standsY).mp nonneg
  have sum := (stands_pack (standsX.add standsY) finite).1
  refine (float_le_iff_of_stands standsX sum).mpr ?_
  calc
    a = nearest .binary64 a := standsX.nearest_eq.symm
    _ ≤ nearest .binary64 (a + b) := nearest_mono _ (le_add_of_nonneg_right nonnegB)

/-- Running sums with a finite end: what is added is finite, and if nothing of it is negative the
sums are in order. -/
theorem runningSumsFrom_grow (total : Float) (xs : List Float)
    (finite : isFinite ((runningSumsFrom total [] xs).getLast?.getD total))
    (grows : ∀ x ∈ xs, isFinite x → 0 ≤ x) :
    (∀ sum ∈ total :: runningSumsFrom total [] xs, isFinite sum) ∧
      (total :: runningSumsFrom total [] xs).Pairwise (· ≤ ·) := by
  induction xs generalizing total with
  | nil => exact ⟨by simpa [runningSumsFrom] using finite, List.pairwise_singleton _ _⟩
  | cons x rest ih =>
    rw [List.forall_mem_cons] at grows
    rw [runningSumsFrom_cons, List.getLast?_cons, Option.getD_some] at finite
    obtain ⟨all, ordered⟩ := ih (total + x) finite grows.2
    rw [runningSumsFrom_cons]
    obtain ⟨finiteT, finiteX⟩ := isFinite_of_add (all _ List.mem_cons_self)
    have up := float_le_add (all _ List.mem_cons_self) (grows.1 finiteX)
    refine ⟨List.forall_mem_cons.mpr ⟨finiteT, all⟩, List.pairwise_cons.mpr ⟨?_, ordered⟩⟩
    refine List.forall_mem_cons.mpr ⟨up, fun sum later => ?_⟩
    exact float_le_trans up ((List.pairwise_cons.mp ordered).1 sum later)

/-- The last of sums that grow from zero. -/
theorem last_nonneg {sums : List Float} (ordered : ((0 : Float) :: sums).Pairwise (· ≤ ·)) :
    0 ≤ sums.getLast?.getD 0 := by
  cases known : sums.getLast? with
  | none => exact float_le_self_of_number rfl
  | some last => exact (List.pairwise_cons.mp ordered).1 _ (List.mem_of_getLast? known)

end LaserCutter.Number
