/-! Cells of the terminal, and rectangles of cells. -/
namespace Schematic

/-- A cell, or an extent in cells. -/
structure Vec where
  x : Int := 0
  y : Int := 0
deriving DecidableEq, Repr, Inhabited

namespace Vec

instance : Add Vec := ⟨fun a b => ⟨a.x + b.x, a.y + b.y⟩⟩

@[simp] theorem add_x (a b : Vec) : (a + b).x = a.x + b.x := rfl

@[simp] theorem add_y (a b : Vec) : (a + b).y = a.y + b.y := rfl

theorem add_right_cancel {a b c : Vec} (h : a + c = b + c) : a = b := by
  have hx := congrArg Vec.x h
  have hy := congrArg Vec.y h
  cases a
  cases b
  simp only [add_x, add_y, Int.add_left_inj] at hx hy
  rw [hx, hy]

/-- The cell is one of a canvas that starts at the origin and extends over `bounds`. -/
def Within (p bounds : Vec) : Prop :=
  0 ≤ p.x ∧ p.x < bounds.x ∧ 0 ≤ p.y ∧ p.y < bounds.y

instance (p bounds : Vec) : Decidable (p.Within bounds) :=
  inferInstanceAs (Decidable (_ ∧ _))

end Vec

/-- The rectangle of `size` cells whose first cell is `position`. -/
structure Region where
  position : Vec := {}
  size : Vec := ⟨1, 1⟩
deriving DecidableEq, Repr, Inhabited

namespace Region

instance : Membership Vec Region where
  mem r p := r.position.x ≤ p.x ∧ p.x < r.position.x + r.size.x ∧
    r.position.y ≤ p.y ∧ p.y < r.position.y + r.size.y

theorem mem_def {p : Vec} {r : Region} : p ∈ r ↔ r.position.x ≤ p.x ∧
    p.x < r.position.x + r.size.x ∧ r.position.y ≤ p.y ∧ p.y < r.position.y + r.size.y := Iff.rfl

instance (p : Vec) (r : Region) : Decidable (p ∈ r) :=
  inferInstanceAs (Decidable (_ ∧ _))

/-- The region of one cell. -/
def single (p : Vec) : Region := ⟨p, ⟨1, 1⟩⟩

theorem mem_single {p q : Vec} : p ∈ single q ↔ p = q := by
  cases p
  cases q
  simp only [mem_def, single, Vec.mk.injEq]
  omega

/-- A region without width or without height has no edges. -/
def Degenerate (r : Region) : Prop := r.size.x = 0 ∨ r.size.y = 0

instance (r : Region) : Decidable r.Degenerate := inferInstanceAs (Decidable (_ ∨ _))

/-- The cells just inside each side. -/
structure Edges where
  left : Int
  right : Int
  top : Int
  bottom : Int
deriving DecidableEq, Repr

def edges (r : Region) : Edges where
  left := r.position.x
  right := r.position.x + r.size.x - 1
  top := r.position.y
  bottom := r.position.y + r.size.y - 1

/-- The test for a shared cell, by comparing edges. -/
def Meets (a b : Region) : Prop :=
  a.edges.left ≤ b.edges.right ∧ a.edges.right ≥ b.edges.left ∧
    a.edges.top ≤ b.edges.bottom ∧ a.edges.bottom ≥ b.edges.top

instance (a b : Region) : Decidable (a.Meets b) := inferInstanceAs (Decidable (_ ∧ _))

theorem Meets.symm {a b : Region} (h : a.Meets b) : b.Meets a :=
  ⟨h.2.1, h.1, h.2.2.2, h.2.2.1⟩

end Region
end Schematic
