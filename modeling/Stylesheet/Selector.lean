import Stylesheet.TopLevel

/-!
# Selectors

A nested rule is about what its own selector says inside what the rule
around it is about. `Selector.compose` combines every selector of the
rule around with every branch of the header: an `&` in the branch stands
for the outer selector, and a branch without one is its descendant.
-/

set_option autoImplicit false

namespace Stylesheet

namespace Selector

/-- The comma branches of a header, trimmed, empty ones left out. -/
def branches (header : Text) : List Text :=
  ((splitTop ',' header).map Text.trim).filter (!·.isEmpty)

/-- One branch inside one outer selector. -/
def nest (outer branch : Text) : Text :=
  if List.contains branch '&' then Text.substitute '&' outer branch else outer ++ ' ' :: branch

/-- The selectors of a header below outer selectors, the outer ones
varying slowest. Without outer selectors they are the branches. -/
def compose (outer : List Text) (header : Text) : List Text :=
  if outer.isEmpty then branches header
  else outer.flatMap fun a => (branches header).map (nest a)

end Selector

end Stylesheet
