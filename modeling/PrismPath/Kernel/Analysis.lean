import PrismPath.Kernel.Engine

/-!
This module contains what the static analysis of a graph says about its conditions: which of them always or never
match, which nodes can get stuck, and which edges stand behind one that always matches first.
-/

open Python

namespace Analysis

open Predicates Parser

inductive Severity where
  | error
  | warning
  deriving DecidableEq

structure Finding where
  severity : Severity
  code : String
  node : Option String
  message : String
  deriving DecidableEq

/-- What the findings take from the runtime: the text of a problem, `repr` and `str.lower`, and `str.isdigit`. -/
structure Texts where
  problem : Problem → String
  repr : String → String
  lower : String → String
  isDigit : String → Bool

/- Conditions that always match. -/

/-- `_is_always_true` -/
def isAlwaysTrue (py : Runtime) (condition : String) : Bool :=
  if !isDeterministic condition then
    false
  else if lower (exprOf condition) ∈ always then
    true
  else
    match exprAst py condition with
    | some (.constant v) => v.truthy
    | _ => false

/- Conditions that are each other's negation. -/

/-- Literals of one `repr`; no list and no dict is a literal. -/
def sameLiteral : Value → Value → Bool
  | .none, .none => true
  | .bool b, .bool c => b = c
  | .int m, .int n => m = n
  | .float x, .float y => x = y
  | .str s, .str t => s = t
  | .bytes s, .bytes t => s = t
  | .ellipsis, .ellipsis => true
  | .imag x, .imag y => x = y
  | _, _ => false

mutual

/-- `ast.dump(e) == ast.dump(e')`, as far as the trees here tell nodes apart. -/
def sameDump : Expr → Expr → Bool
  | .constant v, .constant w => sameLiteral v w
  | .name id, .name id' => id = id'
  | .boolOp op es, .boolOp op' es' => op = op' && sameDumpList es es'
  | .unaryOp op e, .unaryOp op' e' => op = op' && sameDump e e'
  | .compare l rest, .compare l' rest' => sameDump l l' && sameDumpRest rest rest'
  | .list es, .list es' => sameDumpList es es'
  | .tuple es, .tuple es' => sameDumpList es es'
  | .other kind es, .other kind' es' => kind = kind' && sameDumpList es es'
  | _, _ => false

def sameDumpList : List Expr → List Expr → Bool
  | [], [] => true
  | e :: es, e' :: es' => sameDump e e' && sameDumpList es es'
  | _, _ => false

def sameDumpRest : List (CmpOp × Expr) → List (CmpOp × Expr) → Bool
  | [], [] => true
  | (op, e) :: rest, (op', e') :: rest' => op = op' && sameDump e e' && sameDumpRest rest rest'
  | _, _ => false

end

/-- Is the first the negation of the second? -/
def notOf : Expr → Expr → Bool
  | .unaryOp .not e, e' => sameDump e e'
  | _, _ => false

/-- `_OPP` -/
def opposite : CmpOp → Option CmpOp
  | .eq => some .notEq
  | .notEq => some .eq
  | .lt => some .gtE
  | .gtE => some .lt
  | .gt => some .ltE
  | .ltE => some .gt
  | _ => none

/-- Single comparisons of the same two sides by opposite operators. -/
def opposed : Expr → Expr → Bool
  | .compare l [(op, r)], .compare l' [(op', r')] =>
    sameDump l l' && sameDump r r' && opposite op = some op'
  | _, _ => false

def negatesTree (na nb : Expr) : Bool :=
  notOf na nb || notOf nb na || opposed na nb

/-- `_negates` -/
def negates (py : Runtime) (first second : String) : Bool :=
  match exprAst py first, exprAst py second with
  | some na, some nb => negatesTree na nb
  | _, _ => false

/- Conditions that never match. -/

/-- `flip[type(op)]` -/
def flip : CmpOp → Except String CmpOp
  | .lt => .ok .gt
  | .gt => .ok .lt
  | .ltE => .ok .gtE
  | .gtE => .ok .ltE
  | .eq => .ok .eq
  | .notEq => .ok .notEq
  | _ => .error "KeyError"

/-- `_as_simple_compare` -/
def asSimpleCompare : Expr → Except String (Option (String × CmpOp × Value))
  | .compare (.name id) [(op, .constant v)] => .ok (if v.isNumber then some (id, op, v) else none)
  | .compare (.constant v) [(op, .name id)] =>
    if v.isNumber then do
      let op ← flip op
      return some (id, op, v)
    else
      .ok none
  | _ => .ok none

mutual

/-- `_flatten_and` -/
def flattenAnd : Expr → Option (List Expr)
  | .boolOp .or _ => none
  | .boolOp .and es => flattenAndList es
  | e => some [e]

def flattenAndList : List Expr → Option (List Expr)
  | [] => some []
  | e :: es =>
    match flattenAnd e, flattenAndList es with
    | some out, some rest => some (out ++ rest)
    | _, _ => none

end

/-- The end of an interval, and whether it belongs to the interval. -/
structure Bound where
  value : Number
  inclusive : Bool

structure Bounds where
  lower : List (String × Bound) := []
  upper : List (String × Bound) := []

def tightenLower (lower : List (String × Bound)) (var : String) (value : Number) (inc : Bool)
    : List (String × Bound) :=
  match lower.lookup var with
  | none => Dict.set lower var ⟨value, inc⟩
  | some cur =>
    if cur.value.lt value || (value.eq cur.value && cur.inclusive && !inc) then
      Dict.set lower var ⟨value, inc⟩
    else
      lower

def tightenUpper (upper : List (String × Bound)) (var : String) (value : Number) (inc : Bool)
    : List (String × Bound) :=
  match upper.lookup var with
  | none => Dict.set upper var ⟨value, inc⟩
  | some cur =>
    if value.lt cur.value || (value.eq cur.value && cur.inclusive && !inc) then
      Dict.set upper var ⟨value, inc⟩
    else
      upper

def tighten (bounds : Bounds) (var : String) (op : CmpOp) (value : Number) : Bounds :=
  match op with
  | .gt => { bounds with lower := tightenLower bounds.lower var value false }
  | .gtE => { bounds with lower := tightenLower bounds.lower var value true }
  | .lt => { bounds with upper := tightenUpper bounds.upper var value false }
  | .ltE => { bounds with upper := tightenUpper bounds.upper var value true }
  | .eq => {
      lower := tightenLower bounds.lower var value true
      upper := tightenUpper bounds.upper var value true
    }
  | _ => bounds

def tightenBy (bounds : Bounds) (conjunct : Expr) : Except String Bounds := do
  match ← asSimpleCompare conjunct with
  | none => return bounds
  | some (var, op, v) =>
    match v.num? with
    | none => return bounds
    | some value => return tighten bounds var op value

/-- No number is in the interval. -/
def contradict (low high : Bound) : Bool :=
  high.value.lt low.value || (low.value.eq high.value && !(low.inclusive && high.inclusive))

def Bounds.contradictory (bounds : Bounds) : Bool :=
  bounds.lower.any fun (var, low) =>
    match bounds.upper.lookup var with
    | some high => contradict low high
    | none => false

def isAlwaysFalseTree : Expr → Except String Bool
  | .constant v => .ok (!v.truthy)
  | e =>
    match flattenAnd e with
    | none => .ok false
    | some conjuncts => do
      let bounds ← conjuncts.foldlM tightenBy {}
      return bounds.contradictory

/-- `_is_always_false` -/
def isAlwaysFalse (py : Runtime) (condition : String) : Except String Bool :=
  match exprAst py condition with
  | none => .ok false
  | some e => isAlwaysFalseTree e

/- Nodes that can get stuck. -/

def deterministicEdges (node : Node) : List Edge :=
  node.edges.filter fun edge => isDeterministic edge.condition

/-- Some element goes with a later one. -/
def anyPair {α : Type} (p : α → α → Bool) : List α → Bool
  | [] => false
  | a :: as => as.any (p a) || anyPair p as

def exhaustive (py : Runtime) (node : Node) : Bool :=
  anyPair (negates py) ((deterministicEdges node).map Edge.condition)

def stuckFindings (py : Runtime) (node : Node) : List Finding :=
  if node.terminal then
    []
  else if !(Engine.semanticEdges node).isEmpty || (deterministicEdges node).isEmpty then
    []
  else if (deterministicEdges node).any fun edge => isAlwaysTrue py edge.condition then
    []
  else if exhaustive py node then
    []
  else
    [⟨.warning, "possible-stuck", some node.name,
      "deterministic-only node whose conditions are not provably exhaustive - add an `else`/`always` edge "
        ++ "(or a complementary `when not …`) so it can't halt as stuck"⟩]

/-- `_check_stuck` -/
def checkStuck (py : Runtime) (graph : Graph) : List Finding :=
  graph.nodes.flatMap (stuckFindings py)

/- Edges that another edge always comes before. -/

def firstTrue (py : Runtime) (node : Node) : Option ℕ :=
  node.edges.findIdx? fun edge => isDeterministic edge.condition && isAlwaysTrue py edge.condition

def shadowMessage (first later : ℕ) (edge : Edge) : Option String :=
  if later = first then
    none
  else if isError edge.condition || isEvent edge.condition then
    -- error and event edges route on tiers of their own
    none
  else if isDeterministic edge.condition && first < later then
    some ("edge -> '" ++ edge.target ++ "' is unreachable: an earlier catch-all edge always matches first")
  else if !isDeterministic edge.condition then
    some ("semantic edge -> '" ++ edge.target
      ++ "' is unreachable: a deterministic catch-all on this node always matches first")
  else
    none

/-- The edges `_check_shadowing` reports, by their position. -/
def shadowed (py : Runtime) (node : Node) : List (ℕ × String) :=
  match firstTrue py node with
  | none => []
  | some first =>
    node.edges.zipIdx.filterMap fun (edge, later) =>
      (shadowMessage first later edge).map fun message => (later, message)

def checkShadowing (py : Runtime) (graph : Graph) : List Finding :=
  graph.nodes.flatMap fun node =>
    (shadowed py node).map fun (_, message) => ⟨.warning, "shadowed-edge", some node.name, message⟩

def firstBare (node : Node) : Option ℕ :=
  node.edges.findIdx? fun edge => isError edge.condition && (errorExpr edge.condition = "")

/-- The edges `_check_error_shadowing` reports. -/
def shadowedErrors (node : Node) : List (ℕ × Edge) :=
  match firstBare node with
  | none => []
  | some first =>
    node.edges.zipIdx.filterMap fun (edge, later) =>
      if isError edge.condition && first < later then some (later, edge) else none

def checkErrorShadowing (graph : Graph) : List Finding :=
  graph.nodes.flatMap fun node =>
    (shadowedErrors node).map fun (_, edge) =>
      ⟨.warning, "shadowed-error-edge", some node.name,
        "error edge -> '" ++ edge.target ++ "' is unreachable: an earlier unconditional `on error` always matches "
          ++ "first - order `on error when …` edges before the bare `on error` catch-all"⟩

/-- The edges `_check_event_shadowing` reports, among those from `later` on, where `seen` is awaited before them. -/
def shadowedEventsFrom (seen : List String) (later : ℕ) : List Edge → List (ℕ × Edge)
  | [] => []
  | edge :: edges =>
    if !isEvent edge.condition then
      shadowedEventsFrom seen (later + 1) edges
    else if eventName edge.condition ∈ seen then
      (later, edge) :: shadowedEventsFrom seen (later + 1) edges
    else
      shadowedEventsFrom (eventName edge.condition :: seen) (later + 1) edges

def shadowedEvents (node : Node) : List (ℕ × Edge) :=
  shadowedEventsFrom [] 0 node.edges

def checkEventShadowing (graph : Graph) : List Finding :=
  graph.nodes.flatMap fun node =>
    (shadowedEvents node).map fun (_, edge) =>
      ⟨.warning, "shadowed-event-edge", some node.name,
        "event edge -> '" ++ edge.target ++ "' is unreachable: an earlier edge on this node already awaits '"
          ++ eventName edge.condition ++ "' (first-match-wins)"⟩

/- Dead and duplicate edges. -/

/-- The edges `_check_dead_and_dup` reports as always false. -/
def deadEdges (py : Runtime) (node : Node) : Except String (List Edge) := do
  let dead ← node.edges.mapM fun edge => isAlwaysFalse py edge.condition
  return (node.edges.zip dead).filterMap fun (edge, isDead) => if isDead then some edge else none

/-- The conditions whose text came before. -/
def duplicates (texts : Texts) (seen : List String) : List String → List String
  | [] => []
  | condition :: conditions =>
    let key := texts.lower (strip condition)
    if key ∈ seen then
      condition :: duplicates texts seen conditions
    else
      duplicates texts (key :: seen) conditions

def deadAndDupFindings (py : Runtime) (texts : Texts) (node : Node) : Except String (List Finding) := do
  let dead ← deadEdges py node
  let duplicate := duplicates texts [] ((Engine.semanticEdges node).map Edge.condition)
  return (dead.map fun edge =>
      (⟨.warning, "always-false-edge", some node.name,
        "edge -> '" ++ edge.target ++ "' has a condition that is always false (dead edge): "
          ++ texts.repr edge.condition⟩ : Finding))
    ++ duplicate.map fun condition =>
      ⟨.warning, "duplicate-condition", some node.name,
        "duplicate semantic condition " ++ texts.repr condition
          ++ " - the two edges are a guaranteed near-tie for the router"⟩

/-- `_check_dead_and_dup` -/
def checkDeadAndDup (py : Runtime) (texts : Texts) (graph : Graph) : Except String (List Finding) := do
  let findings ← graph.nodes.mapM (deadAndDupFindings py texts)
  return findings.flatten

end Analysis
