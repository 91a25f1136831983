set_option autoImplicit false

/-! # Bundled domains

The domain files that the library brings along: a point robot that crosses a square around an
obstacle, with its dynamics given in either way. -/

namespace HybridPlan.Bundled

/-- The navigation domain with the given section of dynamics. -/
def navigation (dynamics : List String) : String :=
  let lines :=
    [ "# Point robot moving in a 10x10 square around a square obstacle, with bounded acceleration.",
      "constants:",
      "Epsilon = config_epsilon",
      "bigM = config_bigM",
      "MaxAcceleration = 0.5",
      "---",
      "pvariables:",
      "action_continuous: Dt",
      "action_continuous: Accelerate_x",
      "action_continuous: Accelerate_y",
      "state_continuous: Location_x",
      "state_continuous: Location_y",
      "state_continuous: Speed_x",
      "state_continuous: Speed_y",
      "---" ] ++
    dynamics ++
    [ "---",
      "initials:",
      "Location_x == 0",
      "Location_y == 0",
      "Speed_x == 0",
      "Speed_y == 0",
      "---",
      "instantaneous_constraints:",
      "Accelerate_x >= -MaxAcceleration and Accelerate_x <= MaxAcceleration",
      "Accelerate_y >= -MaxAcceleration and Accelerate_y <= MaxAcceleration",
      "Dt <= 10.0",
      "---",
      "temporal_constraints:",
      "Location_x_dash >= 0 and Location_x_dash <= 10",
      "Location_y_dash >= 0 and Location_y_dash <= 10",
      "(Location_x_dash <= 4) or (Location_x_dash >= 6) or " ++
        "(Location_y_dash <= 4) or (Location_y_dash >= 6)",
      "---",
      "goals:",
      "Location_x == 8",
      "Location_y == 8",
      "---",
      "reward:",
      "-Dt" ]
  String.join (lines.map (· ++ "\n"))

def navigationOdes : String := navigation
  [ "odes:",
    "dd(Location_x, Dt) == Speed_x",
    "dd(Location_y, Dt) == Speed_y",
    "dd(Speed_x, Dt) == Accelerate_x",
    "dd(Speed_y, Dt) == Accelerate_y" ]

def navigationSolutions : String := navigation
  [ "transitions:",
    "Location_x_dash == Location_x + Speed_x * Dt + 0.5 * Accelerate_x * Dt ** 2",
    "Location_y_dash == Location_y + Speed_y * Dt + 0.5 * Accelerate_y * Dt ** 2",
    "Speed_x_dash == Speed_x + Accelerate_x * Dt",
    "Speed_y_dash == Speed_y + Accelerate_y * Dt" ]

/-- The bundled domain files by name. -/
def files : List (String × String) :=
  [ ("odes_navigation_1.txt", navigationOdes),
    ("solutions_navigation_1.txt", navigationSolutions) ]

end HybridPlan.Bundled
