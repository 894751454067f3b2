import AnimationScope.Text.Basic

/-!
# Vendor prefixes

At-rules and properties may carry one vendor prefix. Prefixes are spelled in
lower case, and names are compared without regard to the case of ASCII letters.
-/

namespace AnimationScope.Css

/-- The prefixes that are known, in the order in which they are tried. -/
def vendorPrefixes : List Text :=
  ["-webkit-".toList, "-moz-".toList, "-o-".toList, "-ms-".toList]

/-- The name without its vendor prefix. At most one is removed. -/
def unprefixed (name : Text) : Text :=
  (vendorPrefixes.findSome? name.stripStart?).getD name

/-- Whether a name, with one prefix or none and in any case, is one of `bases`. -/
def matchesUnprefixed (name : Text) (bases : List Text) : Bool :=
  unprefixed (name.map Char.toLower) ∈ bases

end AnimationScope.Css
