import StatesLanguage.Jmespath.Dialect
import StatesLanguage.Jmespath.Syntax
/-!
What expressions select. A star, a slice and a filter turn every item into what the rest of the
expression selects from it, and leave out items for which that is null.
-/
namespace StatesLanguage.Jmespath

/-- The entry put before the first one with a larger key. -/
def insertField {α : Type} (entry : String × α) : List (String × α) → List (String × α)
  | [] => [entry]
  | e :: rest => if entry.1 < e.1 then entry :: e :: rest else e :: insertField entry rest

/-- The entries of an object by key. -/
def sortFields {α : Type} (fields : List (String × α)) : List (String × α) :=
  fields.foldr insertField []

mutual

/-- The value with the keys of all its objects in order. -/
def sorted : Value → Value
  | .arr items => .arr (sortedItems items)
  | .obj fields => .obj (sortFields (sortedFields fields))
  | v => v

def sortedItems : List Value → List Value
  | [] => []
  | v :: rest => sorted v :: sortedItems rest

def sortedFields : List (String × Value) → List (String × Value)
  | [] => []
  | (k, v) :: rest => (k, sorted v) :: sortedFields rest

end

/-- The field of an object, null when there is none. -/
def member (name : String) : Value → Value
  | .obj fields => (fields.lookup name).getD .null
  | _ => .null

/-- The element of an array, counted from the end when the position is negative, and null when there
is none. -/
def element (position : Int) : Value → Value
  | .arr items =>
    if 0 ≤ position then items.getD position.toNat .null
    else if position.natAbs ≤ items.length then items.getD (items.length - position.natAbs) .null
    else .null
  | _ => .null

/-- A bound of a slice within a list of so many items. -/
def endpoint (length : Nat) (step bound : Int) : Int :=
  if bound < 0 then
    if 0 ≤ bound + length then bound + length else if step < 0 then -1 else 0
  else if bound < length then bound
  else if step < 0 then length - 1
  else length

/-- Every so many items from `start` on, before `stop`, at most as many as there are. -/
def stepping (items : List Value) (i stop step : Int) : Nat → List Value
  | 0 => []
  | count + 1 =>
    if (if 0 < step then i < stop else stop < i) then
      items[i.toNat]?.toList ++ stepping items (i + step) stop step count
    else []

/-- The part of a list between two bounds, in steps, backwards when the step is negative. -/
def sliced (items : List Value) (start stop : Option Int) (step : Int) : List Value :=
  let n := items.length
  let first := match start with
    | some b => endpoint n step b
    | none => if step < 0 then (n : Int) - 1 else 0
  let last := match stop with
    | some b => endpoint n step b
    | none => if step < 0 then -1 else n
  stepping items first last step n

/-- What the items become, without the ones that become null. -/
def project (each : Value → Option Value) (items : List Value) : Option Value :=
  (items.mapM each).map fun vs => .arr (vs.filter fun v => !v.isNull)

/-- What a selector and the rest of the expression select. A star needs an array or an object, and a
slice of step zero has no value. -/
def Selector.follow (rest : Value → Option Value) : Selector → Value → Option Value
  | .field name, v => rest (member name v)
  | .index i, v => rest (element i v)
  | .items, .arr vs => project rest vs
  | .items, _ => some .null
  | .values, .obj fields => project rest ((sortFields fields).map (·.2))
  | .values, _ => some .null
  | .slice start stop step, v =>
    let step := step.getD 1
    if step = 0 then none
    else match v with
      | .arr vs => project rest (sliced vs start stop step)
      | _ => some .null

/-- What selectors select one after the other. -/
def followAll : List Selector → Value → Option Value
  | [], v => some v
  | s :: rest, v => s.follow (followAll rest) v

/-- Whether a value counts as true. Numbers always do, and other values unless they are empty. -/
def isTrue : Value → Bool
  | .null => false
  | .bool b => b
  | .str s => !s.isEmpty
  | .arr items => !items.isEmpty
  | .obj fields => !fields.isEmpty
  | .int _ | .float _ => true

mutual

/-- Equality in conditions, with numbers that are equal as the implementation says. -/
def alike (d : Dialect) : Value → Value → Bool
  | .null, .null => true
  | .bool a, .bool b => a == b
  | .str a, .str b => a == b
  | .int a, .int b => d.equal (.int a) (.int b)
  | .int a, .float b => d.equal (.int a) (.float b)
  | .float a, .int b => d.equal (.float a) (.int b)
  | .float a, .float b => d.equal (.float a) (.float b)
  | .arr xs, .arr ys => alikeItems d xs ys
  | .obj fs, .obj gs => fs.length == gs.length && alikeFields d gs fs
  | _, _ => false

def alikeItems (d : Dialect) : List Value → List Value → Bool
  | [], [] => true
  | x :: xs, y :: ys => alike d x y && alikeItems d xs ys
  | _, _ => false

def alikeFields (d : Dialect) (gs : List (String × Value)) : List (String × Value) → Bool
  | [] => true
  | (k, v) :: rest =>
    (match gs.lookup k with
      | some w => alike d v w
      | none => false) && alikeFields d gs rest

end

/-- Whether a comparison holds. Only numbers have an order, which is that of the floats nearest to
them. -/
def Comparator.holds (d : Dialect) (c : Comparator) (a b : Value) : Bool :=
  match c with
  | .equal => alike d a b
  | .unequal => !alike d a b
  | .atMost => ordered (fun x y => x ≤ y) fun x y => x ≤ y
  | .atLeast => ordered (fun x y => y ≤ x) fun x y => y ≤ x
  | .less => ordered (fun x y => x < y) fun x y => x < y
  | .greater => ordered (fun x y => y < x) fun x y => y < x
where
  ordered (integers : Int → Int → Bool) (floats : Float → Float → Bool) : Bool :=
    match a, b with
    | .int x, .int y => integers (rounded x) (rounded y)
    | a, b =>
      match a.float?, b.float? with
      | some x, some y => floats x y
      | _, _ => false

def Operand.value? (item : Value) : Operand → Option Value
  | .path selectors => followAll selectors item
  | .literal v => some v

/-- Whether a clause holds of an item. -/
def Clause.holds? (d : Dialect) (item : Value) : Clause → Option Bool
  | .test o => (o.value? item).map isTrue
  | .compare c l r => do
    let a ← l.value? item
    let b ← r.value? item
    return c.holds d a b

/-- Whether all clauses hold, looking no further than the first that does not. -/
def allHold? (d : Dialect) (item : Value) : List Clause → Option Bool
  | [] => some true
  | c :: rest => do if ← c.holds? d item then allHold? d item rest else some false

/-- Whether a condition holds, looking no further than the first alternative that does. -/
def Condition.holds? (d : Dialect) (item : Value) : Condition → Option Bool
  | [] => some false
  | cs :: rest => do
    if ← allHold? d item cs then some true else Condition.holds? d item rest

/-- What an expression selects, null when there is nothing. -/
def Query.eval (d : Dialect) : Query → Value → Option Value
  | .here, v => some v
  | .select s rest, v => s.follow (rest.eval d) v
  | .filter condition each rest, .arr items => do
    let found ← project (fun item => do
      if ← condition.holds? d item then each.eval d item else some .null) items
    rest.eval d found
  | .filter _ _ rest, _ => rest.eval d .null

end StatesLanguage.Jmespath
