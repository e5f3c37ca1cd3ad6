import ShaderCost.Settings.Basic

/-! # Heat

How a line's cost compares with the greatest cost in its file: as one of four levels, by the
percentage it reaches, and as a colour between white and red. Both quotients are taken in double
precision, so costs beyond 2^53 are compared as their nearest doubles.
-/

namespace ShaderCost

inductive HeatLevel where
  | cold | warm | hot | critical
  deriving DecidableEq, Repr, Inhabited

namespace HeatLevel

def all : List HeatLevel := [cold, warm, hot, critical]

def name : HeatLevel → String
  | cold => "COLD"
  | warm => "WARM"
  | hot => "HOT"
  | critical => "CRITICAL"

/-- The name as people write it. -/
def label : HeatLevel → String
  | cold => "Cold"
  | warm => "Warm"
  | hot => "Hot"
  | critical => "Critical"

/-- The level of a cost when `largest` is the greatest: that of the highest threshold its percentage
reaches. -/
def ofCost (thresholds : HeatThresholds) (cost largest : Int64) : HeatLevel :=
  if cost ≤ 0 || largest ≤ 0 then cold
  else
    let percent := (min cost largest).toFloat * 100 / largest.toFloat
    if percent ≥ thresholds.critical.toFloat then critical
    else if percent ≥ thresholds.hot.toFloat then hot
    else if percent ≥ thresholds.warm.toFloat then warm
    else cold

end HeatLevel

/-- The colour behind a line: white where nothing is spent, and the redder the closer the cost is to
the greatest. -/
def heatColor (cost largest : Int64) : String :=
  if cost ≤ 0 || largest ≤ 0 then "#ffffff"
  else
    let share := ((min cost largest).toFloat * 255 / largest.toFloat).toUInt64.toNat
    let fade := Quoted.hex 2 (255 - share)
    "#ff" ++ fade ++ fade

end ShaderCost
