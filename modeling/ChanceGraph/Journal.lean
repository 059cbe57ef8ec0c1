/-!
Journals: records below a level are dropped, the others are written once by each file attached.
-/

set_option autoImplicit false

namespace ChanceGraph

structure Journal where
  name : String
  level : Int
  files : Nat
  lines : List String

namespace Journal

def infoLevel : Int :=
  20

/-- Where no level is set, that of all journals applies. -/
def commonLevel : Int :=
  30

def levelName (level : Int) : String :=
  if level = 0 then "NOTSET"
  else if level = 10 then "DEBUG"
  else if level = 20 then "INFO"
  else if level = 30 then "WARNING"
  else if level = 40 then "ERROR"
  else if level = 50 then "CRITICAL"
  else "Level " ++ toString level

def new (name : String) : Journal :=
  ⟨name, 0, 0, []⟩

def setUp (j : Journal) (level : Option Int) (toFile : Bool) : Journal :=
  { j with level := level.getD infoLevel, files := j.files + if toFile then 1 else 0 }

/-- Records of no positive level are dropped by every journal. -/
def admits (j : Journal) (level : Int) : Bool :=
  0 < level && (if j.level = 0 then commonLevel else j.level) ≤ level

def line (j : Journal) (level : Int) (text : String) : String :=
  j.name ++ " - " ++ levelName level ++ " - " ++ text

def emit (j : Journal) (level : Int) (text : String) : Journal :=
  if j.admits level then { j with lines := j.lines ++ List.replicate j.files (j.line level text) }
  else j

end Journal

end ChanceGraph
