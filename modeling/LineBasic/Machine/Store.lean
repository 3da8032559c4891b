import LineBasic.Machine.Value

/-!
# The variables of a running program

A store maps names to values.  A value is written under the name as it is spelled and read under
the name in capitals, which is how a program spells all its names.

Main definitions:

- `Store.ofSymbols`: the store in which every variable holds the initial value of its type.
- `Store.put`, `Store.reset` and `Store.get?`: writing and reading.
- `eval`: the value of an expression.
-/

namespace LineBasic.Machine

/-- Names with their values; a name occurs once. -/
abbrev Store := List (String × Value)

namespace Store

/-- Let a name hold a value. -/
def put (name : String) (value : Value) : Store → Store
  | [] => [(name, value)]
  | (x, v) :: rest => if x = name then (name, value) :: rest else (x, v) :: put name value rest

/-- What a name, taken in capitals, holds. -/
def get? (store : Store) (name : String) : Option Value :=
  store.lookup (upper name)

/-- Let a name hold the initial value of a type, if the type has one. -/
def reset (name : String) (type : SymbolType) (store : Store) : Store :=
  match Value.initial? type with
  | some v => store.put name v
  | none => store

/-- Every symbol that can hold a value, with the initial one of its type. -/
def ofSymbols (symbols : List Symbol) : Store :=
  symbols.foldl (fun store s => store.reset s.name s.type) []

end Store

/-- The value of an expression.  The left operand goes first, and operands must be numbers. -/
def eval (store : Store) : Expr → Except Fault Value
  | .number n => .ok (.integer n)
  | .text content => .ok (.text content)
  | .name x =>
    match store.get? x with
    | some v => .ok v
    | none => .error (.undefinedVariable x)
  | .binary op lhs rhs => do
    let l ← number (← eval store lhs)
    let r ← number (← eval store rhs)
    return .integer (← apply op l r)
where
  /-- The number that a value must be. -/
  number (v : Value) : Except Fault Int16 :=
    match v.toNumber? with
    | some n => .ok n
    | none => .error .nonInteger

/-- The number that an expression must have as its value. -/
def evalNumber (store : Store) (e : Expr) : Except Fault Int16 := do
  eval.number (← eval store e)

/-- The values of items as they are printed, with nothing between them. -/
def evalItems (store : Store) : List Expr → Except Fault String
  | [] => .ok ""
  | e :: rest => do
    let here ← eval store e
    let later ← evalItems store rest
    return here.render ++ later

end LineBasic.Machine
