import SpellPack.Decimal.Notation
import SpellPack.Document.Basic
import SpellPack.Macro.Token
import SpellPack.Pack.Layout
import SpellPack.Text.Lines

/-! The function file of one ray. Each call is one step: it stops when no steps are
left, emits its particles, evaluates its checks where it stands and calls itself one
step ahead. A check that fires may return before that call. -/

namespace SpellPack

namespace Ray

/-- The fields that may hold macro tokens. -/
def macroFields (ray : Ray) : List String :=
  ray.particles.map Particle.name ++ ray.checks.flatMap fun check => [check.subject, check.command]

/-- Whether the ray must be called with arguments. -/
def takesMacros (ray : Ray) : Bool := ray.macroFields.any Macro.hasToken

def macroNames (ray : Ray) : List String := Macro.names ray.macroFields

end Ray

namespace RayFile

/-- The score that counts the steps still to go. -/
def stepsObjective : String := "spell_ray_steps"

def titleLine (ray : Ray) (index : Nat) : String :=
  let shown := Text.singleLine ray.name
  if shown.isEmpty then "# Ray " ++ toString index else "# Ray: " ++ shown

def guardLine : String :=
  "execute if score @s " ++ stepsObjective ++ " matches ..0 run return fail"

def countLine : String := "scoreboard players remove @s " ++ stepsObjective ++ " 1"

/-- A particle without a name is left out. -/
def particleLine? (particle : Particle) : Option String :=
  let name := Text.singleLine particle.name
  if name.isEmpty then none
  else
    some <| Macro.markLine <|
      "particle " ++ name ++ " ^ ^ ^ " ++ particle.dx.commandText ++ " " ++
        particle.dy.commandText ++ " " ++ particle.dz.commandText ++ " " ++
        particle.speed.commandText ++ " " ++ toString particle.count.toNat

/-- A check without a subject or without a command is left out. -/
def checkLine? (check : Check) : Option String :=
  let subject := Text.singleLine check.subject
  let command := Text.singleLine check.command
  if subject.isEmpty || command.isEmpty then none
  else
    some <| Macro.markLine <|
      "execute " ++ (if check.invert then "unless" else "if") ++ " " ++ subject ++ " run " ++
        (if check.passThrough then "" else "return ") ++ command

/-- Each macro argument is handed on under its own name. -/
def argumentsText (names : List String) : String :=
  "\x7b" ++ ",".intercalate (names.map fun name => name ++ ":$(" ++ name ++ ")") ++ "\x7d"

def stepLine (ray : Ray) (index : Nat) (spellId : String) : String :=
  let line := "execute positioned ^ ^ ^" ++ ray.effectiveStep.commandText ++
    " run function " ++ Layout.rayFunction spellId index
  if ray.takesMacros then "$" ++ line ++ " " ++ argumentsText ray.macroNames else line

def fileLines (ray : Ray) (index : Nat) (spellId : String) : List String :=
  [titleLine ray index, guardLine, countLine] ++
    ray.particles.filterMap particleLine? ++
    ray.checks.filterMap checkLine? ++
    [stepLine ray index spellId]

def text (ray : Ray) (index : Nat) (spellId : String) : String :=
  Text.joinLines (fileLines ray index spellId)

/-- The lines that start the ray when the spell is activated. -/
def activationLines (ray : Ray) (index : Nat) (spellId : String) : List String :=
  let call := "function " ++ Layout.rayFunction spellId index
  ["scoreboard players set @s " ++ stepsObjective ++ " " ++ toString ray.effectiveMaxSteps.toNat,
    if ray.takesMacros then call ++ " with entity @s" else call]

end RayFile
end SpellPack
