import SpellPack.Binary64.Grid
import SpellPack.Proofs.CanonicalNumbers
import SpellPack.Proofs.PackLines
import SpellPack.Proofs.SelectedPoint

/-! A dragged point lands on the grid: each coordinate becomes the double nearest to some
hundredths. The roundings on the way there and back move it by far less than half a
hundredth, so it stays when it is dropped again, and commands show the hundredths. -/

namespace SpellPack.Proofs.GridPlaces
open Binary64 ExactNumbers NearestInteger NearestRank CommandNumbers DoubleReading ShownNumbers CanonicalNumbers

section Magnitudes

variable {rank count : Nat}

def scaledRank (rank : Nat) : Nat := mulRank rank (natRank 100)

/-- The hundredths to which a magnitude is rounded. -/
def dropCount (rank : Nat) : Nat := divHalfUp (units (scaledRank rank)) unitsPerOne

def placeRank (count : Nat) : Nat := divRank (natRank count) (natRank 100)

theorem scaledRank_eq (rank : Nat) : scaledRank rank = rounded (size rank * 100 * unitsPerOne) := by
  rw [scaledRank, mulRank_eq, size_natRank (by decide), Nat.cast_ofNat]

theorem placeRank_eq (few : count ≤ 300) : placeRank count = rounded (count / 100 * unitsPerOne) := by
  have hundred : size (natRank 100) = 100 := by rw [size_natRank (by decide), Nat.cast_ofNat]
  rw [placeRank, divRank_eq _ (by rw [hundred]; norm_num), hundred, size_natRank (by omega)]

theorem size_gridEdge : size (natRank gridEdge) = 3 := by
  rw [size_natRank (by decide), gridEdge, Nat.cast_ofNat]

theorem abs_size_scaledRank_sub_le (inside : size rank ≤ 3) :
    |size (scaledRank rank) - size rank * 100| ≤ 300 / 2 ^ 53 := by
  have nonneg := size_nonneg rank
  rw [scaledRank_eq]
  exact abs_size_rounded_sub_le (by linarith) (by linarith) (by norm_num)

theorem size_scaledRank_le (inside : size rank ≤ 3) : size (scaledRank rank) ≤ 300 := by
  have one := unitsPerOne_cast_pos
  have nonneg := size_nonneg rank
  have exact : size (natRank 300) = 300 := by rw [size_natRank (by decide), Nat.cast_ofNat]
  rw [← exact]
  apply size_strictMono.monotone
  rw [scaledRank_eq, natRank_eq]
  apply rounded_mono (mul_nonneg (by linarith) one.le)
  exact mul_le_mul_of_nonneg_right (by push_cast; linarith) one.le

theorem abs_dropCount_sub_le (rank : Nat) : |(dropCount rank : ℚ) - size (scaledRank rank)| ≤ 1 / 2 :=
  divHalfUp_near _ unitsPerOne_pos

theorem dropCount_le (inside : size rank ≤ 3) : dropCount rank ≤ 300 := by
  have most := size_scaledRank_le inside
  obtain ⟨_, near⟩ := abs_le.mp (abs_dropCount_sub_le rank)
  have below : (dropCount rank : ℚ) < 301 := by linarith
  have below : dropCount rank < 301 := by exact_mod_cast below
  omega

theorem abs_dropCount_sub_mul_le (inside : size rank ≤ 3) :
    |(dropCount rank : ℚ) - size rank * 100| ≤ 1 / 2 + 300 / 2 ^ 53 :=
  (abs_sub_le _ (size (scaledRank rank)) _).trans
    (add_le_add (abs_dropCount_sub_le rank) (abs_size_scaledRank_sub_le inside))

theorem size_placeRank_le (few : count ≤ 300) : size (placeRank count) ≤ 3 := by
  have one := unitsPerOne_cast_pos
  have few' : (count : ℚ) ≤ 300 := by exact_mod_cast few
  rw [← size_gridEdge]
  apply size_strictMono.monotone
  rw [placeRank_eq few, natRank_eq, gridEdge]
  apply rounded_mono (mul_nonneg (div_nonneg (Nat.cast_nonneg count) (by norm_num)) one.le)
  exact mul_le_mul_of_nonneg_right (by push_cast; linarith) one.le

theorem placeRank_lt (few : count ≤ 300) : placeRank count < rankLimit := by
  have edge := size_placeRank_le few
  rw [← size_gridEdge, size_strictMono.le_iff_le] at edge
  exact edge.trans_lt (natRank_lt_rankLimit (by decide))

theorem abs_size_placeRank_sub_le (few : count ≤ 300) : |size (placeRank count) - count / 100| ≤ 3 / 2 ^ 53 := by
  have few' : (count : ℚ) ≤ 300 := by exact_mod_cast few
  rw [placeRank_eq few]
  exact abs_size_rounded_sub_le (by positivity) (by linarith) (by norm_num)

/-- A place is so close to its hundredths that it is rounded to them again. -/
theorem dropCount_placeRank (few : count ≤ 300) : dropCount (placeRank count) = count := by
  obtain ⟨low, high⟩ := abs_le.mp (abs_size_placeRank_sub_le few)
  obtain ⟨least, most⟩ := abs_le.mp (abs_dropCount_sub_mul_le (size_placeRank_le few))
  have above : (count : ℚ) < dropCount (placeRank count) + 1 := by linarith
  have below : (dropCount (placeRank count) : ℚ) < count + 1 := by linarith
  have above : count < dropCount (placeRank count) + 1 := by exact_mod_cast above
  have below : dropCount (placeRank count) < count + 1 := by exact_mod_cast below
  omega

end Magnitudes

section Coordinates

/-- Where a coordinate is dropped: at the edge, if it is beyond it. -/
def aim : Binary64 → ℚ
  | .finite x => max (-3) (min 3 (value x))
  | .infinite negative => signed negative 3
  | .nan => 0

theorem outside_iff (x : Finite) : gridEdge * unitsPerOne < x.magnitude ↔ 3 < size x.rank := by
  rw [size, lt_div_iff₀ unitsPerOne_cast_pos, Finite.magnitude, gridEdge]
  exact_mod_cast Iff.rfl

theorem ofRank_of_lt {rank : Nat} (inside : rank < rankLimit) (negative : Bool) :
    Binary64.ofRank negative rank = .finite ⟨negative, rank, inside⟩ := by
  rw [Binary64.ofRank, dif_pos inside]

theorem edgeRank_lt : natRank gridEdge < rankLimit := natRank_lt_rankLimit (by decide)

def edge (negative : Bool) : Finite := ⟨negative, natRank gridEdge, edgeRank_lt⟩

theorem ofRank_edge (negative : Bool) : Binary64.ofRank negative (natRank gridEdge) = .finite (edge negative) :=
  ofRank_of_lt edgeRank_lt negative

theorem clampToGrid_inside {x : Finite} (inside : size x.rank ≤ 3) : (Binary64.finite x).clampToGrid = .finite x := by
  rw [clampToGrid, if_neg (by rw [outside_iff]; exact not_lt.mpr inside)]

theorem clampToGrid_outside {x : Finite} (outside : 3 < size x.rank) :
    (Binary64.finite x).clampToGrid = .finite (edge x.negative) := by
  rw [clampToGrid, if_pos ((outside_iff x).mpr outside), ofRank_edge]

theorem value_edge (negative : Bool) : value (edge negative) = signed negative 3 := by
  rw [value, edge, size_gridEdge]

/-- What is a number is moved to where it is dropped. -/
theorem clampToGrid_some {x : Binary64} (some : x ≠ .nan) :
    ∃ y : Finite, x.clampToGrid = .finite y ∧ size y.rank ≤ 3 ∧ value y = aim x := by
  cases x with
  | nan => exact absurd rfl some
  | infinite negative => exact ⟨edge negative, ofRank_edge negative, size_gridEdge.le, value_edge negative⟩
  | finite x =>
    rcases le_or_gt (size x.rank) 3 with inside | outside
    · refine ⟨x, clampToGrid_inside inside, inside, ?_⟩
      obtain ⟨low, high⟩ := abs_le.mp ((abs_value x).le.trans inside)
      rw [aim, min_eq_right high, max_eq_right low]
    · refine ⟨edge x.negative, clampToGrid_outside outside, size_gridEdge.le, ?_⟩
      rw [value_edge, aim, value]
      cases x.negative with
      | true =>
        simp only [signed, if_true]
        rw [min_eq_right (by linarith), max_eq_left (by linarith)]
      | false =>
        simp only [signed, Bool.false_eq_true, if_false]
        rw [min_eq_left (by linarith), max_eq_right (by norm_num)]

theorem toHundredths_finite (x : Finite) :
    (Binary64.finite x).toHundredths = Binary64.ofRank x.negative (placeRank (dropCount x.rank)) := rfl

def place (negative : Bool) (count : Nat) (few : count ≤ 300) : Finite := ⟨negative, placeRank count, placeRank_lt few⟩

theorem snapToGrid_of_clamped {x : Binary64} {y : Finite} (clamped : x.clampToGrid = .finite y)
    (inside : size y.rank ≤ 3) :
    x.snapToGrid = .finite (place y.negative (dropCount y.rank) (dropCount_le inside)) := by
  rw [snapToGrid, clamped, toHundredths_finite, ofRank_of_lt (placeRank_lt (dropCount_le inside)), place]

theorem snapToGrid_place (negative : Bool) {count : Nat} (few : count ≤ 300) :
    (Binary64.finite (place negative count few)).snapToGrid = .finite (place negative count few) := by
  have inside : size (place negative count few).rank ≤ 3 := size_placeRank_le few
  rw [snapToGrid, clampToGrid_inside inside, toHundredths_finite]
  simp only [place, dropCount_placeRank few, ofRank_of_lt (placeRank_lt few)]

def signedCount (negative : Bool) (count : Nat) : ℤ := if negative then -count else count

theorem signed_signedCount (negative : Bool) (count : Nat) (scale : ℚ) :
    signed negative (count * scale) = signedCount negative count * scale := by
  cases negative with
  | true => simp [signed, signedCount]
  | false => rfl

theorem nearestDouble_place (negative : Bool) {count : Nat} (few : count ≤ 300) :
    NearestDouble (signedCount negative count / 100) (place negative count few) := by
  have nearest := @nearestDouble_of_rank (count / 100) (by positivity) (place negative count few) (placeRank_eq few)
  rwa [div_eq_mul_inv, signed_signedCount, ← div_eq_mul_inv] at nearest

/-- Commands show the hundredths, since no other hundredth is near. -/
theorem shownCount_place (negative : Bool) {count : Nat} (few : count ≤ 300) :
    shownCount (.finite (place negative count few)) = signedCount negative count := by
  have inside := size_placeRank_le few
  have rounds := @halfEven_shownCount (place negative count few) (lt_of_le_of_lt inside (by norm_num))
  have distance : |(signedCount negative count : ℚ) - value (place negative count few) * 100| =
      |size (placeRank count) - count / 100| * 100 := by
    have scaled := signed_signedCount negative count (100 : ℚ)⁻¹
    rw [← div_eq_mul_inv, ← div_eq_mul_inv] at scaled
    rw [abs_sub_comm, abs_mul_sub (by norm_num), ← scaled]
    exact congrArg (· * 100) (abs_signed_sub negative _ _)
  apply rounds.unique
  apply HalfEven.of_lt
  have close := abs_size_placeRank_sub_le few
  rw [distance]
  linarith

end Coordinates

/-- The coordinate is one of the places, and `text` shows it. -/
structure OnGrid (x : Binary64) (y : Finite) (hundredths : ℤ) (text : String) : Prop where
  least : -300 ≤ hundredths
  most : hundredths ≤ 300
  nearest : NearestDouble (hundredths / 100) y
  inside : |value y| ≤ 3
  near : |hundredths - aim x * 100| ≤ 1 / 2 + 300 / 2 ^ 53
  stays : (Binary64.finite y).snapToGrid = .finite y
  shown : Denotes text.toList (hundredths / 100)
  canonical : text.toList ∈ numberForm ∧ text ≠ "-0"

/-- What a coordinate becomes, and how commands show it. -/
structure Lands (x made : Binary64) (text : String) : Prop where
  nowhere : x = .nan → made = .nan ∧ text = "0"
  somewhere : x ≠ .nan → ∃ y hundredths, made = .finite y ∧ OnGrid x y hundredths text

section Landing

variable {x : Binary64}

theorem canonical_commandText (x : Binary64) : x.commandText.toList ∈ numberForm ∧ x.commandText ≠ "-0" := by
  refine ⟨?_, commandText_ne_negativeZero⟩
  rw [commandText_eq]
  exact countText_mem (shownCount x)

theorem onGrid_place {y : Finite} (inside : size y.rank ≤ 3) (aimed : value y = aim x) {made : Finite}
    (same : made = place y.negative (dropCount y.rank) (dropCount_le inside)) :
    OnGrid x made (signedCount y.negative (dropCount y.rank)) made.commandText := by
  have few := dropCount_le inside
  subst same
  refine ⟨?_, ?_, nearestDouble_place y.negative few, ?_, ?_, snapToGrid_place y.negative few, ?_,
    canonical_commandText (.finite _)⟩
  · rw [signedCount]
    split <;> omega
  · rw [signedCount]
    split <;> omega
  · rw [abs_value]
    exact size_placeRank_le few
  · have one := signed_signedCount y.negative (dropCount y.rank) 1
    rw [mul_one, mul_one] at one
    have hundred : value y * 100 = signed y.negative (size y.rank * 100) := by
      rw [value, signed, signed, ite_mul, neg_mul]
    rw [← aimed, ← one, hundred, abs_signed_sub]
    exact abs_dropCount_sub_mul_le inside
  · have shows := denotes_commandText (.finite (place y.negative (dropCount y.rank) few))
    rwa [shown_eq, shownCount_place] at shows

theorem lands_snapToGrid (x : Binary64) : Lands x x.snapToGrid x.snapToGrid.commandText where
  nowhere none := by
    subst none
    exact ⟨rfl, rfl⟩
  somewhere some := by
    obtain ⟨y, clamped, inside, aimed⟩ := clampToGrid_some some
    have same := snapToGrid_of_clamped clamped inside
    rw [same]
    exact ⟨_, _, rfl, onGrid_place inside aimed rfl⟩

theorem Lands.again {made : Binary64} {text : String} (lands : Lands x made text) : made.snapToGrid = made := by
  by_cases none : x = .nan
  · rw [(lands.nowhere none).1]
    rfl
  · obtain ⟨y, _, rfl, on⟩ := lands.somewhere none
    exact on.stays

end Landing

/-- In the file of the point, and in what is shown of it before, the line that spawns the next
point carries these texts. It is the last line but one. -/
structure Spawns (document : Document) (index : Nat) (offset : Offset) (textX textY : String) : Prop where
  line : PointFile.spawnLine offset = "$function spellcasting:spawn_spell_point \x7bUUID:$(UUID),ox:" ++ textX ++
    ",oy:" ++ textY ++ ",oz:" ++ offset.z.commandText ++ "\x7d"
  previewed : ∃ text front, document.previewPoint index = .ok text ∧
    Text.pieces '\n' text = front ++ [PointFile.spawnLine offset, PointFile.nextLine index]
  packed : ∀ package, document.assemble = .ok package → ∃ front,
    PackLines.HasLines package.files (Layout.pointPath document.spellId index)
      (front ++ [PointFile.spawnLine offset, PointFile.nextLine index])

theorem fileLines_not_last (context : SpellContext) (point : Point) (index : Nat) (isFirst : Bool) :
    ∃ front, PointFile.fileLines context point index isFirst false =
      front ++ [PointFile.spawnLine point.offset, PointFile.nextLine index] := by
  rw [PointFile.fileLines, if_neg Bool.false_ne_true, List.append_assoc, List.singleton_append]
  exact ⟨_, rfl⟩

theorem spawns {document : Document} {index : Nat} {point : Point} (found : document.points[index]? = some point)
    (followed : index + 1 ≠ document.points.length) :
    Spawns document index point.offset point.offset.x.commandText point.offset.y.commandText := by
  have notLast : (index + 1 == document.points.length) = false := beq_eq_false_iff_ne.mpr followed
  obtain ⟨front, lines⟩ := fileLines_not_last document.context point index (index == 0)
  constructor
  · rfl
  · refine ⟨document.pointText index point, front, by rw [Document.previewPoint, found], ?_⟩
    rw [PackLines.pieces_pointText, notLast, lines]
  · intro package assembled
    have written := PackLines.hasLines_point assembled found
    rw [notLast, lines] at written
    exact ⟨front, written⟩

/-- The selected point lies on the grid where it was dropped, stays there when it is dropped
again, and is spawned there. -/
structure Dropped (document : Document) (x y : Binary64) (point : Point) (textX textY : String) : Prop where
  selected : document.points[document.selectedIndex]? = some point
  landsX : Lands x point.offset.x textX
  landsY : Lands y point.offset.y textY
  again : document.setSelectedOffsetFromGrid point.offset.x point.offset.y = document
  spawned : document.selectedIndex + 1 ≠ document.points.length →
    Spawns document document.selectedIndex point.offset textX textY

theorem dropped_fromGrid (document : Document) (x y : Binary64) :
    ∃ point textX textY, Dropped (document.setSelectedOffsetFromGrid x y) x y point textX textY := by
  obtain ⟨before, _, after⟩ := (SelectedPoint.changesSelected_editSelected document fun point =>
    SelectedPoint.change point (.setOffsetFromGrid x y)).selected
  have landsX := lands_snapToGrid x
  have landsY := lands_snapToGrid y
  refine ⟨_, _, _, after, landsX, landsY, ?_, spawns after⟩
  apply SelectedPoint.editSelected_same (SessionRuns.inOrder_editSelected document _) after
  rw [SelectedPoint.change, landsX.again, landsY.again]

def draggedDocument : Document where
  name := "Bolt"
  points := [{ offset := ⟨.nan, .zero, .finite defaultStep⟩ }, {}]

theorem dropped_draggedDocument :
    ∃ point textX textY, Dropped (draggedDocument.setSelectedOffsetFromGrid .nan (.infinite true)) .nan (.infinite true)
        point textX textY ∧
      (point.offset.x = .nan ∧ textX = "0") ∧
      (∃ y hundredths, point.offset.y = .finite y ∧ OnGrid (.infinite true) y hundredths textY) ∧
      Spawns (draggedDocument.setSelectedOffsetFromGrid .nan (.infinite true)) 0 point.offset textX textY := by
  obtain ⟨point, textX, textY, dropped⟩ := dropped_fromGrid draggedDocument .nan (.infinite true)
  exact ⟨point, textX, textY, dropped, dropped.landsX.nowhere rfl, dropped.landsY.somewhere (by decide),
    dropped.spawned (by decide)⟩

/-- Half a hundredth is moved away from zero, and beyond the edge there is only the edge. -/
example : (ofText? "-0.125").map (commandText ∘ snapToGrid) = some "-0.13" ∧
    (ofText? "7.5").map (commandText ∘ snapToGrid) = some "3" := by
  decide +kernel

end SpellPack.Proofs.GridPlaces
