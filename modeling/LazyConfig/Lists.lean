import LazyConfig.Build

/-!
List functions written in the language itself, as the fields of a record that is bound to `lists`.
The recursive calls of `map` and `map2` stand behind `@`, so they give one element at a time;
`foldl` calls itself last and evaluates the new accumulator before.
-/

namespace LazyConfig.Lists

open Build

/-- The name of the record of list functions. -/
def recordName : String :=
  "lists"

/-- One of the list functions. -/
def member (name : String) : Build ExprId := do
  let lists ← ident recordName
  field lists name

/-- Compares a variable with the empty list. -/
def isNil (list : String) : Build ExprId := do
  let list ← ident list
  let nil ← Build.list []
  binary .eq list nil

/-- The first element of the list that a variable stands for. -/
def headOf (list : String) : Build ExprId := do
  let list ← ident list
  builtin .head [list]

/-- The other elements of the list that a variable stands for. -/
def tailOf (list : String) : Build ExprId := do
  let list ← ident list
  builtin .tail [list]

/-- The function `fun f l => if l == [] then [] else [f (%head% l)] @ lists.map f (%tail% l)`. -/
def map : Build ExprId := do
  let finished ← isNil "l"
  let nil ← Build.list []
  let first ← headOf "l"
  let mapped ← callNamed "f" [first]
  let cell ← Build.list [mapped]
  let again ← member "map"
  let f ← ident "f"
  let others ← tailOf "l"
  let rest ← call again [f, others]
  let joined ← binary .concat cell rest
  let body ← cond finished nil joined
  lambdas ["f", "l"] body

/-- Like `map`, with a function of two arguments, as long as both lists have elements. -/
def map2 : Build ExprId := do
  let leftFinished ← isNil "l1"
  let rightFinished ← isNil "l2"
  let finished ← binary .or leftFinished rightFinished
  let nil ← Build.list []
  let first ← headOf "l1"
  let second ← headOf "l2"
  let combined ← callNamed "f" [first, second]
  let cell ← Build.list [combined]
  let again ← member "map2"
  let f ← ident "f"
  let lefts ← tailOf "l1"
  let rights ← tailOf "l2"
  let rest ← call again [f, lefts, rights]
  let joined ← binary .concat cell rest
  let body ← cond finished nil joined
  lambdas ["f", "l1", "l2"] body

/-- The function `fun f n => lists.map f (%range% n)`. -/
def generate : Build ExprId := do
  let mapping ← member "map"
  let f ← ident "f"
  let n ← ident "n"
  let indices ← builtin .range [n]
  let body ← call mapping [f, indices]
  lambdas ["f", "n"] body

/--
The function `fun f acc l => if l == [] then acc else let next = f acc (%head% l) in
%seq% next (lists.foldl f next (%tail% l))`.
-/
def foldl : Build ExprId := do
  let finished ← isNil "l"
  let result ← ident "acc"
  let soFar ← ident "acc"
  let first ← headOf "l"
  let step ← callNamed "f" [soFar, first]
  let again ← member "foldl"
  let f ← ident "f"
  let next ← ident "next"
  let others ← tailOf "l"
  let rest ← call again [f, next, others]
  let forced ← ident "next"
  let strict ← builtin .seq [forced, rest]
  let iterate ← letIn "next" step strict
  let body ← cond finished result iterate
  lambdas ["f", "acc", "l"] body

/-- An expression in whose scope the list functions are. -/
def around (body : ExprId) : Build ExprId := do
  let map ← map
  let map2 ← map2
  let generate ← generate
  let foldl ← foldl
  let record ←
    record [("map", map), ("map2", map2), ("generate", generate), ("foldl", foldl)]
  letIn recordName record body

end LazyConfig.Lists
