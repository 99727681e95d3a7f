import BlockScript.Host

namespace BlockScript.Builtin

open Eval

def memoryArg (op : Builtin) (i : Invocation) : Eval (ScopeId × String) :=
  match i.args with
  | .memory s n :: _ => pure (s, n)
  | [] => fail (.expectedMemory op "nothing")
  | t :: _ => do fail (.expectedMemory op (← typeName t))

def blockArg (op : Builtin) (i : Invocation) : Eval Term :=
  match i.block with
  | some b => pure b
  | none => fail (.missingBlock op)

def activation (op : Builtin) (i : Invocation) : Eval Activation := do
  let σ ← getStore
  match (i.scope.bind σ.callScope?).bind fun c => (σ.get c).kind.activation? with
  | some a => pure a
  | none => fail (.outsideCall op)

def indexArg (i : Invocation) : Eval Int :=
  match i.args with
  | .num n :: _ => pure n
  | [] => fail (.indexNotInteger "nothing")
  | t :: _ => do fail (.indexNotInteger (← typeName t))

def tagArg (i : Invocation) : Eval Tag :=
  match i.args with
  | _ :: .str text :: _ => match Tag.ofName? text with
    | some tag => pure tag
    | none => fail (.unknownTag (Text.quoted text))
  | _ :: t :: _ => do fail (.tagNotString (← typeName t))
  | _ => pure .any

def checkTag (tag : Tag) (t : Term) : Eval Unit := do
  match tag.matches? t with
  | some true => pure ()
  | some false =>
      let actual ← typeName t
      fail (.argumentMismatch tag actual (← source t))
  | none => fail (.notAValue (← inspect t) (← className t))

def checkIndex (index : Int) : Eval Unit := do
  if index < 0 then fail (.negativeIndex (← numeral index))

def giveValue (i : Invocation) : Eval Unit :=
  match i.scope with
  | some s => setReturned s i.first
  | none => pure ()

def stop (i : Invocation) : Eval Unit :=
  match i.scope with
  | some s => breakOff s
  | none => pure ()

def bindValue (call : Caller) (op : Builtin) (constant : Bool) (i : Invocation) : Eval Term := do
  let (s, n) ← memoryArg op i
  let body ← blockArg op i
  let v ← call body (i.plainly [])
  define s n (.var v constant n (← freshMark))
  return .null

def run (call : Caller) : Builtin → Invocation → Eval Term
  | fn, i => do
      let (s, n) ← memoryArg fn i
      let body ← blockArg fn i
      define s n body
      return .null
  | letVar, i => bindValue call letVar false i
  | letConst, i => bindValue call letConst true i
  | del, i => do
      let (s, n) ← memoryArg del i
      remove s n
      return .null
  | Builtin.call, i => do
      let (s, n) ← memoryArg Builtin.call i
      match ← lookup s n with
      | some f => call f { i with args := i.args.tail }
      | none => fail (.unboundTarget n)
  | exist, i => do
      let (s, n) ← memoryArg exist i
      return .bool (← binds s n)
  | param, i => do
      let index ← indexArg i
      let tag ← tagArg i
      checkIndex index
      let a ← activation param i
      let t := a.args.getD index.toNat .null
      checkTag tag t
      return t
  | args, i => do newList (← activation args i).args
  | yield, i => do
      let a ← activation yield i
      match a.yieldBlock with
      | some b => call b { i with scope := a.site }
      | none => fail .noYieldBlock
  | ret, i => do
      giveValue i
      stop i
      return i.first
  | pass, i => do
      giveValue i
      return i.first
  | print, i => do
      write (← displayLine i.args)
      return .null

end BlockScript.Builtin
