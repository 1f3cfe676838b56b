import Mathlib.Algebra.Group.Prod
import Mathlib.Algebra.Order.BigOperators.Group.List
import Mathlib.Data.List.Forall2
import Mathlib.Data.List.Rotate
import TurtleVM.Proofs.TurtlePosition

/-! # Turned paths

The table of unit vectors is symmetric (`rotate_unitVectors`), so headings that are turned by a
quarter turn have their vectors turned exactly (`unitVector_of_quarterTurn`). Vectors add up, so the
same holds of whole paths: with all headings turned by 90 degrees the displacement is turned, with
full turns it stays the same, and with half turns it is the opposite. A path and its opposite, moved
along in any order, lead back to where the turtle started: `turned_headings_turn_the_path`.
-/

namespace TurtleVM

namespace Heading

variable {a b : Int32} {degrees k : Int} {n : Nat} {headings headings' : List Int32}

/-! ### Turned headings -/

/-- The heading `b` is the heading `a` turned by some degrees, without overflow. -/
def TurnedBy (degrees : Int) (a b : Int32) : Prop := b.toInt = a.toInt + degrees

instance : Decidable (TurnedBy degrees a b) := inferInstanceAs (Decidable (_ = _))

/-- A vector turned by 90 degrees. -/
def quarterTurn (v : Int × Int) : Int × Int := (-v.2, v.1)

/-- The table is symmetric: taken up a quarter further on, and going on at the start where it ends,
it holds the same vectors turned by 90 degrees. -/
theorem rotate_unitVectors :
    unitVectors.toList.rotate 90 = unitVectors.toList.map quarterTurn := by
  decide +kernel

/-- The vector of a quarter more is the vector turned by 90 degrees. -/
theorem vector_add_quarter (h : n < 360) : vector ((n + 90) % 360) = quarterTurn (vector n) := by
  have hlt : (n + 90) % 360 < 360 := Nat.mod_lt _ (by decide)
  have hlt' : n < unitVectors.toList.length := by rwa [length_unitVectors]
  apply Option.some.inj
  calc some (vector ((n + 90) % 360))
      = unitVectors.toList[(n + 90) % 360]? := (getElem?_unitVectors hlt).symm
    _ = (unitVectors.toList.rotate 90)[n]? := by
        rw [List.getElem?_rotate hlt', length_unitVectors]
    _ = unitVectors.toList[n]?.map quarterTurn := by rw [rotate_unitVectors, List.getElem?_map]
    _ = some (quarterTurn (vector n)) := by rw [getElem?_unitVectors h, Option.map_some]

theorem normalize_of_turnedBy (h : TurnedBy degrees a b) :
    (normalize b : Int) = (normalize a + degrees) % 360 := by
  unfold TurnedBy at h
  unfold normalize
  omega

theorem unitVector_of_quarterTurn (h : TurnedBy 90 a b) :
    unitVector b = quarterTurn (unitVector a) := by
  have hn := normalize_of_turnedBy h
  have hlt := normalize_lt a
  have hb : normalize b = (normalize a + 90) % 360 := by omega
  rw [unitVector, hb, vector_add_quarter hlt]
  rfl

theorem unitVector_of_fullTurns (h : TurnedBy (360 * k) a b) : unitVector b = unitVector a := by
  have hn := normalize_of_turnedBy h
  have hlt := normalize_lt a
  have hb : normalize b = normalize a := by omega
  rw [unitVector, hb]
  rfl

theorem unitVector_of_halfTurn (h : TurnedBy 180 a b) : unitVector b = -unitVector a := by
  have hn := normalize_of_turnedBy h
  have hlt := normalize_lt a
  -- Two quarter turns, each of which is one of headings from 0 to 359.
  have hlt' : (normalize a + 90) % 360 < 360 := by omega
  have hb : normalize b = ((normalize a + 90) % 360 + 90) % 360 := by omega
  rw [unitVector, hb, vector_add_quarter hlt', vector_add_quarter hlt]
  rfl

/-! ### Turned displacements -/

@[simp] theorem displacement_nil : displacement [] = 0 := rfl

@[simp] theorem displacement_cons (a : Int32) (headings : List Int32) :
    displacement (a :: headings) = unitVector a + displacement headings := by
  simp [displacement, Prod.ext_iff]

@[simp] theorem displacement_append (headings headings' : List Int32) :
    displacement (headings ++ headings') = displacement headings + displacement headings' := by
  simp [displacement]

theorem displacement_perm (h : headings.Perm headings') :
    displacement headings = displacement headings' := by
  unfold displacement
  rw [(h.map _).sum_eq, (h.map _).sum_eq]

/-- What turns every vector in the same way turns their sum, if it goes with addition. -/
theorem displacement_of_forall₂ (turn : Int × Int →+ Int × Int)
    (h : List.Forall₂ (fun a b => unitVector b = turn (unitVector a)) headings headings') :
    displacement headings' = turn (displacement headings) := by
  induction h with
  | nil => exact (map_zero turn).symm
  | cons hvector _ ih => rw [displacement_cons, displacement_cons, map_add, hvector, ih]

/-- A quarter turn goes with addition. -/
def quarterTurnHom : Int × Int →+ Int × Int :=
  AddMonoidHom.mk' quarterTurn fun v w => Prod.ext (neg_add v.2 w.2) rfl

theorem displacement_of_quarterTurns (h : List.Forall₂ (TurnedBy 90) headings headings') :
    displacement headings' = quarterTurn (displacement headings) :=
  displacement_of_forall₂ quarterTurnHom (h.imp fun _ _ => unitVector_of_quarterTurn)

theorem displacement_of_fullTurns
    (h : List.Forall₂ (fun a b => ∃ k, TurnedBy (360 * k) a b) headings headings') :
    displacement headings' = displacement headings :=
  displacement_of_forall₂ (AddMonoidHom.id _)
    (h.imp fun _ _ ⟨_, hturned⟩ => unitVector_of_fullTurns hturned)

theorem displacement_of_halfTurns (h : List.Forall₂ (TurnedBy 180) headings headings') :
    displacement headings' = -displacement headings :=
  displacement_of_forall₂ negAddMonoidHom (h.imp fun _ _ => unitVector_of_halfTurn)

/-- A path and its opposite lead nowhere, in whatever order their moves come. -/
theorem displacement_eq_zero {path : List Int32}
    (h : List.Forall₂ (TurnedBy 180) headings headings')
    (hpath : path.Perm (headings ++ headings')) : displacement path = 0 := by
  rw [displacement_perm hpath, displacement_append, displacement_of_halfTurns h, add_neg_cancel]

end Heading

/-! ### Following headings -/

namespace Turtle

open Heading

/-- The turtle after moves along headings one after the other. -/
def follow (headings : List Int32) (t : Turtle) : Turtle :=
  headings.foldl (fun t heading => t.advance heading) t

/-- Moves add the displacement of their headings, and leave the pen as it is. -/
theorem follow_eq (headings : List Int32) (t : Turtle) :
    t.follow headings =
      { t with
        x := t.x + Int64.ofInt (displacement headings).1
        y := t.y + Int64.ofInt (displacement headings).2 } := by
  induction headings generalizing t with
  | nil => simp [follow]
  | cons heading headings ih =>
    show (t.advance heading).follow headings = _
    rw [ih, displacement_cons]
    simp [advance, Int64.ofInt_add, Int64.add_assoc]

end Turtle

namespace Machine

open Heading

variable {m : Machine} {k : Nat}

/-- After some steps a machine's turtle has moved by the displacement of their headings. -/
theorem place_after (m : Machine) (k : Nat) :
    (m.after k).scene.turtle.x =
        m.scene.turtle.x + Int64.ofInt (displacement (m.headings k)).1 ∧
      (m.after k).scene.turtle.y =
        m.scene.turtle.y + Int64.ofInt (displacement (m.headings k)).2 := by
  induction k with
  | zero => exact ⟨(Int64.add_zero _).symm, (Int64.add_zero _).symm⟩
  | succ k ih =>
    obtain ⟨hx, hy⟩ := ih
    show (m.after k).step.2.scene.turtle.x = _ ∧ (m.after k).step.2.scene.turtle.y = _
    by_cases hmove : (m.after k).fetch? = some .move
    · rw [headings_succ_of_move hmove, turtle_step_of_move hmove, displacement_append_singleton,
        Int64.ofInt_add, Int64.ofInt_add, ← Int64.add_assoc, ← Int64.add_assoc, ← hx, ← hy]
      exact ⟨rfl, rfl⟩
    · rw [headings_succ_of_ne hmove]
      by_cases hdraw : (m.after k).fetch? = some .draw
      · -- Lowering the pen does not move the turtle.
        rw [turtle_step_of_draw hdraw]
        exact ⟨hx, hy⟩
      · rw [turtle_step_of_ne hmove hdraw]
        exact ⟨hx, hy⟩

end Machine

namespace Heading

/-- **Turning every heading turns the path exactly.** With all headings turned by 90 degrees the
displacement is turned by 90 degrees, and with all of them turned by whole turns, each by its own
number, it is the same. From wherever the turtle stands, moves along some headings and along the
same headings turned by 180 degrees, in any order, lead back there. A machine's turtle is moved by
the displacement of the headings of its moves, so this holds of the moves of a program as well. -/
theorem turned_headings_turn_the_path :
    (∀ headings turned, List.Forall₂ (TurnedBy 90) headings turned →
      displacement turned = (-(displacement headings).2, (displacement headings).1)) ∧
    (∀ headings turned, List.Forall₂ (fun a b => ∃ k, TurnedBy (360 * k) a b) headings turned →
      displacement turned = displacement headings) ∧
    (∀ there back path, List.Forall₂ (TurnedBy 180) there back → path.Perm (there ++ back) →
      ∀ t : Turtle, t.follow path = t) ∧
    ∀ (m : Machine) (k : Nat),
      ((m.after k).scene.turtle.x =
          m.scene.turtle.x + Int64.ofInt (displacement (m.headings k)).1 ∧
        (m.after k).scene.turtle.y =
          m.scene.turtle.y + Int64.ofInt (displacement (m.headings k)).2) ∧
      ∀ there back, List.Forall₂ (TurnedBy 180) there back →
        (m.headings k).Perm (there ++ back) →
          (m.after k).scene.turtle.x = m.scene.turtle.x ∧
            (m.after k).scene.turtle.y = m.scene.turtle.y := by
  refine ⟨?_, ?_, ?_, ?_⟩
  · intro headings turned h
    exact displacement_of_quarterTurns h
  · intro headings turned h
    exact displacement_of_fullTurns h
  · intro there back path h hpath t
    rw [Turtle.follow_eq, displacement_eq_zero h hpath]
    simp
  · intro m k
    obtain ⟨hx, hy⟩ := m.place_after k
    refine ⟨⟨hx, hy⟩, ?_⟩
    intro there back h hpath
    rw [displacement_eq_zero h hpath] at hx hy
    rw [hx, hy]
    exact ⟨Int64.add_zero _, Int64.add_zero _⟩

/-- `STO A 30`, `MOV`, `ADD A 180`, `MOV` on 10 by 1 pixels. -/
def thereAndBack : Machine :=
  ⟨#[3, 0, 30, 0, 2, 5, 0, 180, 0, 2], 0, .running, 0,
    ⟨.zero, .centred ⟨10, 1⟩, ⟨⟨10, 1⟩, #[0, 0], Nat.le_refl 2⟩⟩⟩

/-- Headings at both ends of their range, and a turtle that wraps around on its way. -/
theorem turned_headings_turn_the_path_of_extremes :
    (List.Forall₂ (TurnedBy 90) [-2147483648, 10] [-2147483558, 100] ∧
      displacement [-2147483648, 10] = (378, -629) ∧
      displacement [-2147483558, 100] = (629, 378)) ∧
    (List.Forall₂ (fun a b => ∃ k, TurnedBy (360 * k) a b) [-90, 2147483647] [270, 127] ∧
      displacement [270, 127] = displacement [-90, 2147483647]) ∧
    (List.Forall₂ (TurnedBy 180) [-2147483648, 10] [-2147483468, 190] ∧
      [190, -2147483648, 10, -2147483468].Perm
        (([-2147483648, 10] : List Int32) ++ [-2147483468, 190]) ∧
      (Turtle.mk 9223372036854775807 (-5) true).follow [190, -2147483648, 10, -2147483468] =
        Turtle.mk 9223372036854775807 (-5) true) ∧
    thereAndBack.headings 4 = [30, 210] ∧
      (thereAndBack.after 2).scene.turtle.x = 6007 ∧
      (thereAndBack.after 4).scene.turtle.x = 5120 := by
  obtain ⟨hquarter, hfull, hhalf, hmachine⟩ := turned_headings_turn_the_path
  have hturned : List.Forall₂ (TurnedBy 90) [-2147483648, 10] [-2147483558, 100] :=
    .cons rfl (.cons rfl .nil)
  have hwhole : List.Forall₂ (fun a b => ∃ k, TurnedBy (360 * k) a b)
      [-90, 2147483647] [270, 127] :=
    .cons ⟨1, by decide⟩ (.cons ⟨-5965232, by decide⟩ .nil)
  have hopposite : List.Forall₂ (TurnedBy 180) [-2147483648, 10] [-2147483468, 190] :=
    .cons rfl (.cons rfl .nil)
  have horder : [190, -2147483648, 10, -2147483468].Perm
      (([-2147483648, 10] : List Int32) ++ [-2147483468, 190]) := by decide
  have hthere : displacement [-2147483648, 10] = (378, -629) := by decide +kernel
  have hheadings : thereAndBack.headings 4 = [30, 210] := rfl
  refine ⟨⟨hturned, hthere, ?_⟩, ⟨hwhole, hfull _ _ hwhole⟩,
    ⟨hopposite, horder, hhalf _ _ _ hopposite horder _⟩, hheadings, ?_, ?_⟩
  · rw [hquarter _ _ hturned, hthere]
    rfl
  · have hthere' : displacement (thereAndBack.headings 2) = (887, 512) := by decide +kernel
    have hx := (hmachine thereAndBack 2).1.1
    rw [hthere'] at hx
    exact hx
  · have hback := (hmachine thereAndBack 4).2 [30] [210] (.cons rfl .nil)
      (hheadings ▸ List.Perm.refl _)
    exact hback.1

end Heading

end TurtleVM
