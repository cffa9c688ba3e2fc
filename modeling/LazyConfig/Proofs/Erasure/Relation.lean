import LazyConfig.Proofs.ByName.Run
import LazyConfig.Proofs.Erasure.Erase
import LazyConfig.Proofs.Value.Entries

/-!
When evaluation by name with annotations stands where evaluation without them stands. Checks that
are put off or waited for are all that there may be more.
-/

namespace LazyConfig.ByName

/-- A program whose annotations are resolved, and how deep its expressions are nested at most. -/
structure Annotated where
  names : NameTable
  code : Code
  annotations : Annotations
  depth : Nat
  sound : annotations.graph.Sound

namespace Annotated

/-- What the evaluation with annotations reads. -/
def context (source : Annotated) : Context :=
  ⟨source.names, source.code, source.annotations⟩

/-- What the evaluation without annotations reads; no annotation is ever looked up. -/
def erased (source : Annotated) (others : Annotations) : Context :=
  ⟨source.names, source.code.erase source.depth, others⟩

/-- An expression all of whose annotations have types. -/
def Covered (source : Annotated) (id : ExprId) : Prop :=
  source.annotations.Covers source.code source.depth id

/-- The expression inside any ascriptions and alias groups. -/
def core (source : Annotated) (id : ExprId) : ExprId :=
  source.code.core source.depth id

/-- The number of ascriptions and alias groups around the core of an expression. -/
def wraps (source : Annotated) (id : ExprId) : Nat :=
  source.code.wraps source.depth id

end Annotated

mutual

/-- A promise gives what another promise gives, once its checks have succeeded. -/
inductive PromiseErases (source : Annotated) : Promise → Promise → Prop
  | ready {value bare : Value} (erases : ValueErases source value bare) :
    PromiseErases source (.ready value) (.ready bare)
  | expr {id : ExprId} {env bound : Env} (covered : source.Covered id)
    (names : env.map Prod.fst = bound.map Prod.fst)
    (promises : List.Forall₂ (PromiseErases source) (env.map Prod.snd) (bound.map Prod.snd)) :
    PromiseErases source (.expr id env) (.expr id bound)
  /-- An annotated variable is put off; without the annotation it stands for what it is bound to. -/
  | named {id : ExprId} {name : Name} {env bound : Env} {bare : Promise}
    (covered : source.Covered id) (found : source.code.expr (source.core id) = .ident name)
    (names : env.map Prod.fst = bound.map Prod.fst)
    (promises : List.Forall₂ (PromiseErases source) (env.map Prod.snd) (bound.map Prod.snd))
    (known : bound.lookup name = some bare) : PromiseErases source (.expr id env) bare
  | recursive {name : Name} {id : ExprId} {env bound : Env} (covered : source.Covered id)
    (names : env.map Prod.fst = bound.map Prod.fst)
    (promises : List.Forall₂ (PromiseErases source) (env.map Prod.snd) (bound.map Prod.snd)) :
    PromiseErases source (.recursive name id env) (.recursive name id bound)
  | apply {func bare : Promise} {args bares : List Promise} (erases : PromiseErases source func bare)
    (others : List.Forall₂ (PromiseErases source) args bares) :
    PromiseErases source (.apply func args) (.apply bare bares)
  | check {inner bare : Promise} {type : TypeId} (erases : PromiseErases source inner bare) :
    PromiseErases source (.check inner type) bare

/-- A value is another value, but for checks of its parts that are put off. -/
inductive ValueErases (source : Annotated) : Value → Value → Prop
  | int (value : Int64) : ValueErases source (.int value) (.int value)
  | float (value : Float) : ValueErases source (.float value) (.float value)
  | bool (value : Bool) : ValueErases source (.bool value) (.bool value)
  | str (text : String) : ValueErases source (.str text) (.str text)
  | list {items bare : List Segment} (erases : ListErases source items bare) :
    ValueErases source (.list items) (.list bare)
  -- Checked fields are placed again, which only sorted fields do not notice.
  | record {fields bare : Fields} (sorted : Sorted fields)
    (names : fields.map Prod.fst = bare.map Prod.fst)
    (promises : List.Forall₂ (PromiseErases source) (fields.map Prod.snd) (bare.map Prod.snd)) :
    ValueErases source (.record fields) (.record bare)
  | closure {param : Name} {body : ExprId} {env bound : Env} (covered : source.Covered body)
    (names : env.map Prod.fst = bound.map Prod.fst)
    (promises : List.Forall₂ (PromiseErases source) (env.map Prod.snd) (bound.map Prod.snd)) :
    ValueErases source (.closure param body env) (.closure param body bound)
  | builtin {op : Builtin} {held bares : List Promise}
    (promises : List.Forall₂ (PromiseErases source) held bares) :
    ValueErases source (.builtin op held) (.builtin op bares)

/-- Stretches of a list; a stretch that is checked stands for any number of stretches that are not. -/
inductive ListErases (source : Annotated) : List Segment → List Segment → Prop
  | nil : ListErases source [] []
  | item {promise bare : Promise} {rest others : List Segment}
    (erases : PromiseErases source promise bare) (more : ListErases source rest others) :
    ListErases source (.item promise :: rest) (.item bare :: others)
  | range (next stop : Int64) {rest others : List Segment} (more : ListErases source rest others) :
    ListErases source (.range next stop :: rest) (.range next stop :: others)
  /-- The first integer of a range, when the others have been put off to be checked. -/
  | unrolled {promise : Promise} {next stop : Int64} {rest others : List Segment}
    (erases : PromiseErases source promise (.ready (.int next)))
    (more : ListErases source rest (Segment.span (next + 1) stop ++ others)) :
    ListErases source (.item promise :: rest) (.range next stop :: others)
  | joint {right bare : Promise} {rest others : List Segment}
    (erases : PromiseErases source right bare) (more : ListErases source rest others) :
    ListErases source (.joint right :: rest) (.joint bare :: others)
  | checked {items bares rest others : List Segment} {elem : TypeId}
    (erases : ListErases source items bares) (more : ListErases source rest others) :
    ListErases source (.joint (.checkList items elem) :: rest) (bares ++ others)

end

/-- Entries erase to entries under the same names. -/
abbrev EntriesErase {Key : Type} (source : Annotated) :
    List (Key × Promise) → List (Key × Promise) → Prop :=
  EntriesAgree (PromiseErases source)

/-- Values erase to values, one by one. -/
abbrev WorkErases (source : Annotated) : List Value → List Value → Prop :=
  List.Forall₂ (ValueErases source)

/-- Pairs of values erase to pairs of values, one by one. -/
abbrev PairsErase (source : Annotated) : List (Value × Value) → List (Value × Value) → Prop :=
  List.Forall₂ fun pair bare => ValueErases source pair.1 bare.1 ∧ ValueErases source pair.2 bare.2

/-- What a walk is for erases to what a walk without checks is for. -/
inductive ConsumerErases (source : Annotated) : Consumer → Consumer → Prop
  | head : ConsumerErases source .head .head
  | tail : ConsumerErases source .tail .tail
  | count (passed : Nat) : ConsumerErases source (.count passed) (.count passed)
  | elemAt {items bares : List Segment} (index : Int64) (ahead : Nat)
    (listed : ListErases source items bares) :
    ConsumerErases source (.elemAt items index ahead) (.elemAt bares index ahead)
  | outOfBounds (index : Int64) (passed : Nat) :
    ConsumerErases source (.outOfBounds index passed) (.outOfBounds index passed)
  | deepen {work bares : List Value} {whole bare : Value} (works : WorkErases source work bares)
    (erases : ValueErases source whole bare) :
    ConsumerErases source (.deepen work whole) (.deepen bares bare)
  | compareLeft {right bare : List Segment} {work bares : List (Value × Value)}
    (listed : ListErases source right bare) (pairs : PairsErase source work bares) :
    ConsumerErases source (.compareLeft right work) (.compareLeft bare bares)
  | compareRight {left bare : Option Promise} {rest others : List Segment}
    {work bares : List (Value × Value)} (erases : Option.Rel (PromiseErases source) left bare)
    (listed : ListErases source rest others) (pairs : PairsErase source work bares) :
    ConsumerErases source (.compareRight left rest work) (.compareRight bare others bares)

/--
A walk inside walks that check what they pass on erases to the outermost of them. The frames are
those of the walks around, and the stretches are what comes after their ends.
-/
inductive WalkErases (source : Annotated) :
    Consumer → List Frame → List Segment → Consumer → Prop
  | outermost {consumer bare : Consumer} (erases : ConsumerErases source consumer bare) :
    WalkErases source consumer [] [] bare
  | checked {elem : TypeId} {pending others : List Segment} {consumer : Consumer}
    {frames : List Frame} {after : List Segment} {bare : Consumer}
    (listed : ListErases source pending others)
    (around : WalkErases source consumer frames after bare) :
    WalkErases source (.checkCell elem) (.spine pending consumer :: frames) (others ++ after) bare

/-- A frame waits for the same as a frame without checks. -/
inductive FrameErases (source : Annotated) : Frame → Frame → Prop
  | branch {whenTrue whenFalse : ExprId} {env bound : Env} (first : source.Covered whenTrue)
    (second : source.Covered whenFalse) (binds : EntriesErase source env bound) :
    FrameErases source (.branch whenTrue whenFalse env) (.branch whenTrue whenFalse bound)
  | operand {arg : ExprId} {env bound : Env} (covered : source.Covered arg)
    (binds : EntriesErase source env bound) :
    FrameErases source (.operand arg env) (.operand arg bound)
  | thenEval {body : ExprId} {env bound : Env} (covered : source.Covered body)
    (binds : EntriesErase source env bound) :
    FrameErases source (.thenEval body env) (.thenEval body bound)
  | thenForce {promise bare : Promise} (erases : PromiseErases source promise bare) :
    FrameErases source (.thenForce promise) (.thenForce bare)
  | deepen : FrameErases source .deepen .deepen
  | logicLeft {op : BinaryOp} {right : ExprId} {env bound : Env} (covered : source.Covered right)
    (binds : EntriesErase source env bound) :
    FrameErases source (.logicLeft op right env) (.logicLeft op right bound)
  | logicRight : FrameErases source .logicRight .logicRight
  | concatLeft {right : ExprId} {env bound : Env} (covered : source.Covered right)
    (binds : EntriesErase source env bound) :
    FrameErases source (.concatLeft right env) (.concatLeft right bound)
  | operandLeft {op : BinaryOp} {right : ExprId} {env bound : Env} (covered : source.Covered right)
    (binds : EntriesErase source env bound) :
    FrameErases source (.operandLeft op right env) (.operandLeft op right bound)
  | operandRight {op : BinaryOp} {left bare : Value} (erases : ValueErases source left bare) :
    FrameErases source (.operandRight op left) (.operandRight op bare)
  | unary (op : UnaryOp) : FrameErases source (.unary op) (.unary op)
  | negate : FrameErases source .negate .negate
  | select (name : Name) : FrameErases source (.select name) (.select name)
  | args {rest bares : List Promise} (promises : List.Forall₂ (PromiseErases source) rest bares) :
    FrameErases source (.args rest) (.args bares)
  | mapOver {func bare : Promise} (erases : PromiseErases source func bare) :
    FrameErases source (.mapOver func) (.mapOver bare)
  | fieldNames : FrameErases source .fieldNames .fieldNames
  | fieldName {record bare : Promise} (erases : PromiseErases source record bare) :
    FrameErases source (.fieldName record) (.fieldName bare)
  | fieldOwner (name : String) : FrameErases source (.fieldOwner name) (.fieldOwner name)
  | walk {consumer bare : Consumer} (erases : ConsumerErases source consumer bare) :
    FrameErases source (.walk consumer) (.walk bare)
  | indexed {index bare : Promise} (erases : PromiseErases source index bare) :
    FrameErases source (.indexed index) (.indexed bare)
  | index {items bares : List Segment} (listed : ListErases source items bares) :
    FrameErases source (.index items) (.index bares)
  | bound : FrameErases source .bound .bound
  | kindTest (kind : Kind) : FrameErases source (.kindTest kind) (.kindTest kind)
  | deepItem {rest others : List Segment} {work bares : List Value} {whole bare : Value}
    (listed : ListErases source rest others) (works : WorkErases source work bares)
    (erases : ValueErases source whole bare) :
    FrameErases source (.deepItem rest work whole) (.deepItem others bares bare)
  | compareItemLeft {right bare : Promise} {lefts rights leftBares rightBares : List Segment}
    {work bares : List (Value × Value)} (erases : PromiseErases source right bare)
    (leftListed : ListErases source lefts leftBares)
    (rightListed : ListErases source rights rightBares) (pairs : PairsErase source work bares) :
    FrameErases source (.compareItemLeft right lefts rights work)
      (.compareItemLeft bare leftBares rightBares bares)
  | compareItemRight {left bare : Value} {lefts rights leftBares rightBares : List Segment}
    {work bares : List (Value × Value)} (erases : ValueErases source left bare)
    (leftListed : ListErases source lefts leftBares)
    (rightListed : ListErases source rights rightBares) (pairs : PairsErase source work bares) :
    FrameErases source (.compareItemRight left lefts rights work)
      (.compareItemRight bare leftBares rightBares bares)

/-- Stacks of frames, with checks that only one of them waits for. -/
inductive StackErases (source : Annotated) : List Frame → List Frame → Prop
  | nil : StackErases source [] []
  | frame {frame bare : Frame} {rest others : List Frame} (erases : FrameErases source frame bare)
    (more : StackErases source rest others) : StackErases source (frame :: rest) (bare :: others)
  | ascribe (type : TypeId) {rest others : List Frame} (more : StackErases source rest others) :
    StackErases source (.ascribe type :: rest) others
  -- The walks that only check are between the frame of the outermost walk and the rest.
  | spine {pending others after : List Segment} {consumer bare : Consumer}
    {frames rest stack : List Frame} (listed : ListErases source pending others)
    (around : WalkErases source consumer frames after bare) (more : StackErases source rest stack) :
    StackErases source (.spine pending consumer :: (frames ++ rest))
      (.spine (others ++ after) bare :: stack)

/-- States of the two evaluations that stand at the same point, up to checks. -/
inductive Erases (source : Annotated) : State → State → Prop
  | eval {id other : ExprId} {env bound : Env} {stack others : List Frame}
    (covered : source.Covered id) (same : source.core id = source.core other)
    (binds : EntriesErase source env bound) (more : StackErases source stack others) :
    Erases source ⟨.eval id env, stack⟩ ⟨.eval other bound, others⟩
  | named {id : ExprId} {name : Name} {env bound : Env} {bare : Promise}
    {stack others : List Frame} (covered : source.Covered id)
    (found : source.code.expr (source.core id) = .ident name)
    (binds : EntriesErase source env bound) (known : bound.lookup name = some bare)
    (more : StackErases source stack others) :
    Erases source ⟨.eval id env, stack⟩ ⟨.force bare, others⟩
  | force {promise bare : Promise} {stack others : List Frame}
    (erases : PromiseErases source promise bare) (more : StackErases source stack others) :
    Erases source ⟨.force promise, stack⟩ ⟨.force bare, others⟩
  | apply {func bare : Value} {arg other : Promise} {stack others : List Frame}
    (erases : ValueErases source func bare) (argument : PromiseErases source arg other)
    (more : StackErases source stack others) :
    Erases source ⟨.apply func arg, stack⟩ ⟨.apply bare other, others⟩
  | run {op : Builtin} {args bares : List Promise} {stack others : List Frame}
    (promises : List.Forall₂ (PromiseErases source) args bares)
    (more : StackErases source stack others) :
    Erases source ⟨.run op args, stack⟩ ⟨.run op bares, others⟩
  | operate {op : BinaryOp} {left right leftBare rightBare : Value} {stack others : List Frame}
    (leftErases : ValueErases source left leftBare)
    (rightErases : ValueErases source right rightBare) (more : StackErases source stack others) :
    Erases source ⟨.operate op left right, stack⟩ ⟨.operate op leftBare rightBare, others⟩
  | advance {items bares after : List Segment} {consumer bare : Consumer}
    {frames stack others : List Frame} (listed : ListErases source items bares)
    (around : WalkErases source consumer frames after bare)
    (more : StackErases source stack others) :
    Erases source ⟨.advance items consumer, frames ++ stack⟩
      ⟨.advance (bares ++ after) bare, others⟩
  | deepen {work bares : List Value} {whole bare : Value} {stack others : List Frame}
    (works : WorkErases source work bares) (erases : ValueErases source whole bare)
    (more : StackErases source stack others) :
    Erases source ⟨.deepen work whole, stack⟩ ⟨.deepen bares bare, others⟩
  | compare {work bares : List (Value × Value)} {stack others : List Frame}
    (pairs : PairsErase source work bares) (more : StackErases source stack others) :
    Erases source ⟨.compare work, stack⟩ ⟨.compare bares, others⟩
  | give {value bare : Value} {stack others : List Frame} (erases : ValueErases source value bare)
    (more : StackErases source stack others) :
    Erases source ⟨.give value, stack⟩ ⟨.give bare, others⟩
  | raise (variant : Variant) (stack others : List Frame) :
    Erases source ⟨.raise variant, stack⟩ ⟨.raise variant, others⟩

end LazyConfig.ByName
