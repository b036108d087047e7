import Reckon.Foreign
import Reckon.Room
import Reckon.Terminal

/-!
# Trees

A tree has rule nodes, token leaves and foreign leaves.  Rules and terminals are named by text, and
positions may be missing, so that trees built by hand are covered as well as those of a program.
-/

namespace Reckon

/-- A line, and a column if known. -/
structure Position where
  line : Int
  column : Option Int
  deriving DecidableEq

/-- A tree. -/
inductive Node where
  | rule (label : String) (children : List Node) (position : Option Position)
  | token (kind text : String) (position : Option Position)
  | foreign (value : Foreign)

namespace Node

mutual

/-- The own position of the first node, in reading order, that has one. -/
def position? : Node → Option Position
  | .rule _ children position => position <|> firstPosition? children
  | .token _ _ position => position
  | .foreign _ => none

/-- The position of the first tree of a list that has one. -/
def firstPosition? : List Node → Option Position
  | [] => none
  | node :: rest => node.position? <|> firstPosition? rest

end

mutual

/-- The number of rule nodes, one in the other, that are searched for the position of a tree.  The
search ends at the first position. -/
def reach : Node → Nat
  | .rule _ children none => reaches children + 1
  | .rule _ _ (some _) => 0
  | .token .. => 0
  | .foreign _ => 0

/-- The number of rule nodes, one in the other, that are searched for the position of a list. -/
def reaches : List Node → Nat
  | [] => 0
  | node :: rest => if node.position?.isSome then node.reach else max node.reach (reaches rest)

end

mutual

/-- The number of rule nodes nested in each other. -/
def height : Node → Nat
  | .rule _ children _ => heights children + 1
  | .token .. => 0
  | .foreign _ => 0

/-- The greatest height in a list. -/
def heights : List Node → Nat
  | [] => 0
  | node :: rest => max node.height (heights rest)

end

mutual

/-- A tree as it is described in messages, if nothing stands in the way. -/
def description : Node → String
  | .rule label children _ =>
    "Tree(" ++ quoted label ++ ", [" ++ ", ".intercalate (descriptions children) ++ "])"
  | .token kind text _ => "Token(" ++ quoted kind ++ ", " ++ quoted text ++ ")"
  | .foreign value => value.description

/-- The descriptions of a list of trees. -/
def descriptions : List Node → List String
  | [] => []
  | node :: rest => node.description :: descriptions rest

end

/-- What can stand in the way of a description. -/
inductive Obstacle where
  /-- The nodes are nested too deeply. -/
  | depth
  /-- A value is not shown. -/
  | value
  deriving DecidableEq

/-- The frames that describing a rule node takes. -/
def descriptionFrames : Nat := 3

mutual

/-- The first obstacle, in reading order, to describing a tree in a room. -/
def obstacle? (room : Room) : Node → Option Obstacle
  | .rule _ children _ =>
    match room.take? descriptionFrames with
    | none => some .depth
    | some inner => firstObstacle? inner children
  | .token .. => none
  | .foreign value => if value.isShowable then none else some .value

/-- The first obstacle to describing the trees of a list. -/
def firstObstacle? (room : Room) : List Node → Option Obstacle
  | [] => none
  | node :: rest => node.obstacle? room <|> firstObstacle? room rest

end

end Node

end Reckon
