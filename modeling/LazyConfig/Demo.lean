import LazyConfig.Lists
import LazyConfig.Program

/-! Small programs that show what the language can do. -/

namespace LazyConfig

/-- A program with a name and a line about it. -/
structure Demo where
  name : String
  summary : String
  build : Build ExprId

namespace Demo

open Build

/-- The function of two arguments that applies an operator to them. -/
def operator (op : BinaryOp) : Build ExprId := do
  let left ← ident "a"
  let right ← ident "b"
  let body ← binary op left right
  lambdas ["a", "b"] body

/-- A call of one of the list functions. -/
def listsCall (name : String) (args : List ExprId) : Build ExprId := do
  let func ← Lists.member name
  call func args

/-- The type `forall a b c. (a -> b -> c) -> List a -> List b -> List c`. -/
def zipType : Build TypeExprId := do
  let a ← tyVar "a"
  let b ← tyVar "b"
  let c ← tyVar "c"
  let combine ← tyFns [a, b] c
  let a ← tyVar "a"
  let b ← tyVar "b"
  let c ← tyVar "c"
  let lefts ← type (.list a)
  let rights ← type (.list b)
  let results ← type (.list c)
  let signature ← tyFns [combine, lefts, rights] results
  tyForAll ["a", "b", "c"] signature

/--
The sum of the products of two generated lists, `x` and `x * x / 2` for the numbers below four. The
function that multiplies the lists and the one that runs the whole are annotated.
-/
def genericFold : Build ExprId := do
  let plus ← operator .add
  let nought ← int 0
  let prod ← ident "prod"
  let total ← listsCall "foldl" [plus, nought, prod]
  let times ← operator .mul
  let left ← ident "left"
  let right ← ident "right"
  let zipped ← callNamed "zip" [times, left, right]
  let body ← letIn "prod" zipped total
  let x ← ident "x"
  let y ← ident "x"
  let square ← binary .mul x y
  let two ← int 2
  let half ← binary .div square two
  let halfSquare ← lambda "x" half
  let n ← ident "n"
  let rights ← listsCall "generate" [halfSquare, n]
  let body ← letIn "right" rights body
  let x ← ident "x"
  let identity ← lambda "x" x
  let n ← ident "n"
  let lefts ← listsCall "generate" [identity, n]
  let body ← letIn "left" lefts body
  let run ← lambda "n" body
  let param ← type .num
  let result ← type .num
  let runType ← tyFn param result
  let four ← int 4
  let start ← callNamed "run" [four]
  let body ← letTyped "run" runType run start
  let zipType ← zipType
  let map2 ← Lists.member "map2"
  let body ← letTyped "zip" zipType map2 body
  Lists.around body

/--
The aliases `T1 = {foo : Num, bar : Str}`, `T2 = {rec : T1, foobool : Bool}` and
`T3 = {recrec : T2, rec : T1, foo : Num}` around a body.
-/
def withRecordAliases (body : ExprId) : Build ExprId := do
  let num ← type .num
  let str ← type .str
  let first ← tyRecord [("foo", num), ("bar", str)]
  let inner ← tyAlias "T1"
  let bool ← type .bool
  let second ← tyRecord [("rec", inner), ("foobool", bool)]
  let outer ← tyAlias "T2"
  let inner ← tyAlias "T1"
  let num ← type .num
  let third ← tyRecord [("recrec", outer), ("rec", inner), ("foo", num)]
  let body ← aliasIn "T3" third body
  let body ← aliasIn "T2" second body
  aliasIn "T1" first body

/-- A record with the field `foo` and, if there is a text for it, the field `bar`. -/
def flatRecord (foo : Int64) (bar : Option String) : Build ExprId := do
  let foo ← int foo
  match bar with
  | some bar =>
    let bar ← str bar
    record [("foo", foo), ("bar", bar)]
  | none => record [("foo", foo)]

/-- A nested record that is annotated with the alias `T3`. -/
def nestedRecord (innerBar : Option String) : Build ExprId := do
  let inner ← flatRecord 1 innerBar
  let yes ← bool true
  let recrec ← record [("rec", inner), ("foobool", yes)]
  let outer ← flatRecord 2 (some "outer")
  let foo ← int 3
  let value ← record [("recrec", recrec), ("rec", outer), ("foo", foo)]
  let type ← tyAlias "T3"
  let x ← ident "x"
  let body ← letTyped "x" type value x
  withRecordAliases body

/-- What can be found out about a record without evaluating a field that would never end. -/
def recordReflection : Build ExprId := do
  let x ← ident "x"
  let again ← callNamed "spin" [x]
  let spin ← lambda "x" again
  let nought ← int 0
  let start ← callNamed "spin" [nought]
  let diverge ← letIn "spin" spin start
  let two ← int 2
  let one ← int 1
  let fields ← record [("b", two), ("a", one), ("loop", diverge)]
  let r ← ident "r"
  let names ← builtin .fieldsOf [r]
  let key ← str "a"
  let r ← ident "r"
  let hasA ← builtin .hasField [key, r]
  let key ← str "z"
  let r ← ident "r"
  let hasZ ← builtin .hasField [key, r]
  let v ← ident "v"
  let ten ← int 10
  let timesTen ← binary .mul v ten
  let f ← lambdas ["k", "v"] timesTen
  let one ← int 1
  let two ← int 2
  let source ← record [("x", one), ("y", two)]
  let scaled ← builtin .map [f, source]
  let result ←
    record [("names", names), ("hasA", hasA), ("hasZ", hasZ), ("scaled", scaled)]
  letIn "r" fields result

/-- A generic application function, used to count up the values of a dictionary. -/
def genericApply : Build ExprId := do
  let n ← ident "n"
  let one ← int 1
  let succBody ← binary .add n one
  let succ ← lambda "n" succBody
  let v ← ident "v"
  let applied ← callNamed "apply" [succ, v]
  let f ← lambdas ["k", "v"] applied
  let one ← int 1
  let two ← int 2
  let source ← record [("alice", one), ("bob", two)]
  let mapped ← builtin .map [f, source]
  let num ← type .num
  let dict ← type (.dict num)
  let scores ← ident "scores"
  let body ← letTyped "scores" dict mapped scores
  let f ← ident "f"
  let x ← ident "x"
  let applied ← Build.apply f x
  let function ← lambdas ["f", "x"] applied
  let a ← tyVar "a"
  let b ← tyVar "b"
  let arrow ← tyFn a b
  let a ← tyVar "a"
  let b ← tyVar "b"
  let signature ← tyFns [arrow, a] b
  let applyType ← tyForAll ["a", "b"] signature
  letTyped "apply" applyType function body

/-- An annotation that uses an alias outside the expression that defines it. -/
def escapedAlias : Build ExprId := do
  let num ← type .num
  let str ← type .str
  let flat ← tyRecord [("foo", num), ("bar", str)]
  let x ← ident "x"
  let inside ← aliasIn "T1" flat x
  let value ← flatRecord 1 (some "b")
  let type ← tyAlias "T1"
  letTyped "x" type value inside

/-- All demos, in the order in which they are listed. -/
def all : List Demo :=
  [ ⟨"generic-fold", "generate, map2 and foldl over two generated lists", genericFold⟩,
    ⟨"record-aliases", "a record checked against nested recursive aliases",
      nestedRecord (some "inner")⟩,
    ⟨"missing-field", "a nested record lacking a field its alias requires", nestedRecord none⟩,
    ⟨"record-reflection", "fieldsOf, hasField and map on records", recordReflection⟩,
    ⟨"forall-map", "generic function annotations and a dictionary type", genericApply⟩,
    ⟨"alias-scope-error", "an alias used outside its typealias scope", escapedAlias⟩ ]

/-- The demo with a name. -/
def find? (name : String) : Option Demo :=
  all.find? fun demo => demo.name == name

/-- The program of a demo. -/
def program (demo : Demo) : Program :=
  .ofBuild demo.build

end Demo

end LazyConfig
