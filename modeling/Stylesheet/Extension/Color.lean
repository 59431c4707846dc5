import Stylesheet.Decimal.Integer
import Stylesheet.Extension.Basic

/-!
# Colour functions

`hsla` takes hue, saturation, lightness and opacity; `cmyk` and `cmyka`
take the four inks in percent. All give a colour of red, green and blue.
The opacity is passed on as it is written.
-/

set_option autoImplicit false

namespace Stylesheet

namespace Extension

/-- The whole number at the front of an argument, divided by a scale. -/
def fraction? (scale : Float) (arg : Text) : Option Float :=
  (Decimal.leadingInt64? arg).map fun n => Float.ofInt n / scale

/-- Red, green and blue for a hue, a saturation and a lightness, which
are given as fractions. Each sixth of the circle has a rule of its own;
what lies outside the circle has the rule of the last sixth. -/
def hslToRgb (h s l : Float) : Float × Float × Float :=
  if s == 0.0 then
    let v := l * 255.0
    (v, v, v)
  else
    let turn := h * 6.0
    let sector := turn.floor
    let p := l * (1.0 - s)
    let q := l * (1.0 - s * (turn - sector))
    let t := l * (1.0 - s * (1.0 - (turn - sector)))
    let (r, g, b) :=
      if sector == 0.0 then (l, t, p)
      else if sector == 1.0 then (q, l, p)
      else if sector == 2.0 then (p, l, t)
      else if sector == 3.0 then (p, q, l)
      else if sector == 4.0 then (t, p, l)
      else (l, p, q)
    ((r * 255.0).ceil, (g * 255.0).ceil, (b * 255.0).ceil)

/-- Parts between commas in parentheses, behind a name. -/
def callText (name : String) (parts : List Text) : Text :=
  name.toList ++ '(' :: (Text.joinWith [','] parts ++ [')'])

/-- The function `hsla`. -/
def hsla : Function where
  name := "hsla".toList
  call _ args :=
    match args with
    | [h, s, l, a] => do
      let h ← fraction? 360.0 h
      let s ← fraction? 100.0 s
      let l ← fraction? 100.0 l
      let (r, g, b) := hslToRgb h s l
      return callText "rgba" [measure r, measure g, measure b, a]
    | _ => none

/-- How much of a colour is left under an ink and the black, as a channel
from 0 to 255. -/
def channel (ink black : Float) : Text :=
  let covered := ink * (1.0 - black) + black
  let covered := if covered < 1.0 then covered else 1.0
  (toString ((1.0 - covered) * 255.0 + 0.5).toInt64.toInt).toList

/-- The channels of four inks. -/
def cmykChannels? : List Text → Option (List Text)
  | [c, m, y, k] => do
    let c ← fraction? 100.0 c
    let m ← fraction? 100.0 m
    let y ← fraction? 100.0 y
    let k ← fraction? 100.0 k
    return [channel c k, channel m k, channel y k]
  | _ => none

/-- The function `cmyk`. -/
def cmyk : Function where
  name := "cmyk".toList
  call _ args := (cmykChannels? args).map (callText "rgb")

/-- The function `cmyka`, with the opacity as last argument. -/
def cmyka : Function where
  name := "cmyka".toList
  call _ args :=
    match args.getLast? with
    | none => none
    | some a => (cmykChannels? args.dropLast).map fun channels => callText "rgba" (channels ++ [a])

end Extension

end Stylesheet
