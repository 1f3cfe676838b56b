/-! # Headings

A heading is an angle in whole degrees, counted from the direction of growing `x` towards growing
`y`. Any signed 32-bit word is a heading; full turns do not matter.

One move adds the unit vector of the heading, scaled by 1024 and rounded to whole numbers. The
vectors of all 360 degrees are tabulated.
-/

namespace TurtleVM.Heading

/-- The heading between 0 and 359 degrees. -/
def normalize (heading : Int32) : Nat := (heading.toInt % 360).toNat

theorem normalize_lt (heading : Int32) : normalize heading < 360 := by
  unfold normalize
  omega

/-- The cosine and the sine of 0 to 359 degrees, times 1024 and rounded to the nearest whole
number. Proofs use the facts about the table and do not look its entries up one by one. -/
@[irreducible] def unitVectors : Array (Int × Int) :=
  #[⟨1024, 0⟩, ⟨1024, 18⟩, ⟨1023, 36⟩, ⟨1023, 54⟩, ⟨1022, 71⟩, ⟨1020, 89⟩,
    ⟨1018, 107⟩, ⟨1016, 125⟩, ⟨1014, 143⟩, ⟨1011, 160⟩, ⟨1008, 178⟩, ⟨1005, 195⟩,
    ⟨1002, 213⟩, ⟨998, 230⟩, ⟨994, 248⟩, ⟨989, 265⟩, ⟨984, 282⟩, ⟨979, 299⟩,
    ⟨974, 316⟩, ⟨968, 333⟩, ⟨962, 350⟩, ⟨956, 367⟩, ⟨949, 384⟩, ⟨943, 400⟩,
    ⟨935, 416⟩, ⟨928, 433⟩, ⟨920, 449⟩, ⟨912, 465⟩, ⟨904, 481⟩, ⟨896, 496⟩,
    ⟨887, 512⟩, ⟨878, 527⟩, ⟨868, 543⟩, ⟨859, 558⟩, ⟨849, 573⟩, ⟨839, 587⟩,
    ⟨828, 602⟩, ⟨818, 616⟩, ⟨807, 630⟩, ⟨796, 644⟩, ⟨784, 658⟩, ⟨773, 672⟩,
    ⟨761, 685⟩, ⟨749, 698⟩, ⟨737, 711⟩, ⟨724, 724⟩, ⟨711, 737⟩, ⟨698, 749⟩,
    ⟨685, 761⟩, ⟨672, 773⟩, ⟨658, 784⟩, ⟨644, 796⟩, ⟨630, 807⟩, ⟨616, 818⟩,
    ⟨602, 828⟩, ⟨587, 839⟩, ⟨573, 849⟩, ⟨558, 859⟩, ⟨543, 868⟩, ⟨527, 878⟩,
    ⟨512, 887⟩, ⟨496, 896⟩, ⟨481, 904⟩, ⟨465, 912⟩, ⟨449, 920⟩, ⟨433, 928⟩,
    ⟨416, 935⟩, ⟨400, 943⟩, ⟨384, 949⟩, ⟨367, 956⟩, ⟨350, 962⟩, ⟨333, 968⟩,
    ⟨316, 974⟩, ⟨299, 979⟩, ⟨282, 984⟩, ⟨265, 989⟩, ⟨248, 994⟩, ⟨230, 998⟩,
    ⟨213, 1002⟩, ⟨195, 1005⟩, ⟨178, 1008⟩, ⟨160, 1011⟩, ⟨143, 1014⟩, ⟨125, 1016⟩,
    ⟨107, 1018⟩, ⟨89, 1020⟩, ⟨71, 1022⟩, ⟨54, 1023⟩, ⟨36, 1023⟩, ⟨18, 1024⟩,
    ⟨0, 1024⟩, ⟨-18, 1024⟩, ⟨-36, 1023⟩, ⟨-54, 1023⟩, ⟨-71, 1022⟩, ⟨-89, 1020⟩,
    ⟨-107, 1018⟩, ⟨-125, 1016⟩, ⟨-143, 1014⟩, ⟨-160, 1011⟩, ⟨-178, 1008⟩, ⟨-195, 1005⟩,
    ⟨-213, 1002⟩, ⟨-230, 998⟩, ⟨-248, 994⟩, ⟨-265, 989⟩, ⟨-282, 984⟩, ⟨-299, 979⟩,
    ⟨-316, 974⟩, ⟨-333, 968⟩, ⟨-350, 962⟩, ⟨-367, 956⟩, ⟨-384, 949⟩, ⟨-400, 943⟩,
    ⟨-416, 935⟩, ⟨-433, 928⟩, ⟨-449, 920⟩, ⟨-465, 912⟩, ⟨-481, 904⟩, ⟨-496, 896⟩,
    ⟨-512, 887⟩, ⟨-527, 878⟩, ⟨-543, 868⟩, ⟨-558, 859⟩, ⟨-573, 849⟩, ⟨-587, 839⟩,
    ⟨-602, 828⟩, ⟨-616, 818⟩, ⟨-630, 807⟩, ⟨-644, 796⟩, ⟨-658, 784⟩, ⟨-672, 773⟩,
    ⟨-685, 761⟩, ⟨-698, 749⟩, ⟨-711, 737⟩, ⟨-724, 724⟩, ⟨-737, 711⟩, ⟨-749, 698⟩,
    ⟨-761, 685⟩, ⟨-773, 672⟩, ⟨-784, 658⟩, ⟨-796, 644⟩, ⟨-807, 630⟩, ⟨-818, 616⟩,
    ⟨-828, 602⟩, ⟨-839, 587⟩, ⟨-849, 573⟩, ⟨-859, 558⟩, ⟨-868, 543⟩, ⟨-878, 527⟩,
    ⟨-887, 512⟩, ⟨-896, 496⟩, ⟨-904, 481⟩, ⟨-912, 465⟩, ⟨-920, 449⟩, ⟨-928, 433⟩,
    ⟨-935, 416⟩, ⟨-943, 400⟩, ⟨-949, 384⟩, ⟨-956, 367⟩, ⟨-962, 350⟩, ⟨-968, 333⟩,
    ⟨-974, 316⟩, ⟨-979, 299⟩, ⟨-984, 282⟩, ⟨-989, 265⟩, ⟨-994, 248⟩, ⟨-998, 230⟩,
    ⟨-1002, 213⟩, ⟨-1005, 195⟩, ⟨-1008, 178⟩, ⟨-1011, 160⟩, ⟨-1014, 143⟩, ⟨-1016, 125⟩,
    ⟨-1018, 107⟩, ⟨-1020, 89⟩, ⟨-1022, 71⟩, ⟨-1023, 54⟩, ⟨-1023, 36⟩, ⟨-1024, 18⟩,
    ⟨-1024, 0⟩, ⟨-1024, -18⟩, ⟨-1023, -36⟩, ⟨-1023, -54⟩, ⟨-1022, -71⟩, ⟨-1020, -89⟩,
    ⟨-1018, -107⟩, ⟨-1016, -125⟩, ⟨-1014, -143⟩, ⟨-1011, -160⟩, ⟨-1008, -178⟩, ⟨-1005, -195⟩,
    ⟨-1002, -213⟩, ⟨-998, -230⟩, ⟨-994, -248⟩, ⟨-989, -265⟩, ⟨-984, -282⟩, ⟨-979, -299⟩,
    ⟨-974, -316⟩, ⟨-968, -333⟩, ⟨-962, -350⟩, ⟨-956, -367⟩, ⟨-949, -384⟩, ⟨-943, -400⟩,
    ⟨-935, -416⟩, ⟨-928, -433⟩, ⟨-920, -449⟩, ⟨-912, -465⟩, ⟨-904, -481⟩, ⟨-896, -496⟩,
    ⟨-887, -512⟩, ⟨-878, -527⟩, ⟨-868, -543⟩, ⟨-859, -558⟩, ⟨-849, -573⟩, ⟨-839, -587⟩,
    ⟨-828, -602⟩, ⟨-818, -616⟩, ⟨-807, -630⟩, ⟨-796, -644⟩, ⟨-784, -658⟩, ⟨-773, -672⟩,
    ⟨-761, -685⟩, ⟨-749, -698⟩, ⟨-737, -711⟩, ⟨-724, -724⟩, ⟨-711, -737⟩, ⟨-698, -749⟩,
    ⟨-685, -761⟩, ⟨-672, -773⟩, ⟨-658, -784⟩, ⟨-644, -796⟩, ⟨-630, -807⟩, ⟨-616, -818⟩,
    ⟨-602, -828⟩, ⟨-587, -839⟩, ⟨-573, -849⟩, ⟨-558, -859⟩, ⟨-543, -868⟩, ⟨-527, -878⟩,
    ⟨-512, -887⟩, ⟨-496, -896⟩, ⟨-481, -904⟩, ⟨-465, -912⟩, ⟨-449, -920⟩, ⟨-433, -928⟩,
    ⟨-416, -935⟩, ⟨-400, -943⟩, ⟨-384, -949⟩, ⟨-367, -956⟩, ⟨-350, -962⟩, ⟨-333, -968⟩,
    ⟨-316, -974⟩, ⟨-299, -979⟩, ⟨-282, -984⟩, ⟨-265, -989⟩, ⟨-248, -994⟩, ⟨-230, -998⟩,
    ⟨-213, -1002⟩, ⟨-195, -1005⟩, ⟨-178, -1008⟩, ⟨-160, -1011⟩, ⟨-143, -1014⟩, ⟨-125, -1016⟩,
    ⟨-107, -1018⟩, ⟨-89, -1020⟩, ⟨-71, -1022⟩, ⟨-54, -1023⟩, ⟨-36, -1023⟩, ⟨-18, -1024⟩,
    ⟨0, -1024⟩, ⟨18, -1024⟩, ⟨36, -1023⟩, ⟨54, -1023⟩, ⟨71, -1022⟩, ⟨89, -1020⟩,
    ⟨107, -1018⟩, ⟨125, -1016⟩, ⟨143, -1014⟩, ⟨160, -1011⟩, ⟨178, -1008⟩, ⟨195, -1005⟩,
    ⟨213, -1002⟩, ⟨230, -998⟩, ⟨248, -994⟩, ⟨265, -989⟩, ⟨282, -984⟩, ⟨299, -979⟩,
    ⟨316, -974⟩, ⟨333, -968⟩, ⟨350, -962⟩, ⟨367, -956⟩, ⟨384, -949⟩, ⟨400, -943⟩,
    ⟨416, -935⟩, ⟨433, -928⟩, ⟨449, -920⟩, ⟨465, -912⟩, ⟨481, -904⟩, ⟨496, -896⟩,
    ⟨512, -887⟩, ⟨527, -878⟩, ⟨543, -868⟩, ⟨558, -859⟩, ⟨573, -849⟩, ⟨587, -839⟩,
    ⟨602, -828⟩, ⟨616, -818⟩, ⟨630, -807⟩, ⟨644, -796⟩, ⟨658, -784⟩, ⟨672, -773⟩,
    ⟨685, -761⟩, ⟨698, -749⟩, ⟨711, -737⟩, ⟨724, -724⟩, ⟨737, -711⟩, ⟨749, -698⟩,
    ⟨761, -685⟩, ⟨773, -672⟩, ⟨784, -658⟩, ⟨796, -644⟩, ⟨807, -630⟩, ⟨818, -616⟩,
    ⟨828, -602⟩, ⟨839, -587⟩, ⟨849, -573⟩, ⟨859, -558⟩, ⟨868, -543⟩, ⟨878, -527⟩,
    ⟨887, -512⟩, ⟨896, -496⟩, ⟨904, -481⟩, ⟨912, -465⟩, ⟨920, -449⟩, ⟨928, -433⟩,
    ⟨935, -416⟩, ⟨943, -400⟩, ⟨949, -384⟩, ⟨956, -367⟩, ⟨962, -350⟩, ⟨968, -333⟩,
    ⟨974, -316⟩, ⟨979, -299⟩, ⟨984, -282⟩, ⟨989, -265⟩, ⟨994, -248⟩, ⟨998, -230⟩,
    ⟨1002, -213⟩, ⟨1005, -195⟩, ⟨1008, -178⟩, ⟨1011, -160⟩, ⟨1014, -143⟩, ⟨1016, -125⟩,
    ⟨1018, -107⟩, ⟨1020, -89⟩, ⟨1022, -71⟩, ⟨1023, -54⟩, ⟨1023, -36⟩, ⟨1024, -18⟩]

/-- The scaled unit vector of an angle of less than a full turn. -/
def vector (degrees : Nat) : Int × Int := unitVectors.getD degrees (1024, 0)

theorem length_unitVectors : unitVectors.toList.length = 360 := by decide +kernel

/-- Every angle of less than a full turn has its entry in the table. -/
theorem getElem?_unitVectors {degrees : Nat} (h : degrees < 360) :
    unitVectors.toList[degrees]? = some (vector degrees) := by
  have hlt : degrees < unitVectors.toList.length := by rwa [length_unitVectors]
  rw [vector, Array.getD_eq_getD_getElem?, ← Array.getElem?_toList, List.getElem?_eq_getElem hlt,
    Option.getD_some]

/-- What one move along a heading adds to the position. -/
def unitVector (heading : Int32) : Int × Int := vector (normalize heading)

example : normalize (-90) = 270 ∧ normalize 725 = 5 := by decide
example : unitVector 45 = (724, 724) := by decide +kernel
example : unitVector (-90) = (0, -1024) := by decide +kernel

end TurtleVM.Heading
