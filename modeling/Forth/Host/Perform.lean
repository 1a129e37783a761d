import Forth.Host.Request

/-! # Performing requests

The requests of a word are performed in order, up to the first that fails, and
each is noted when it is done. Requests can invoke words that make requests in
turn; how deeply this may nest is bounded.
-/

namespace Forth

open Session

def Reply.ofOption {α : Type} (f : α → Reply) : Option α → Reply
  | some a => f a
  | none => .nothing

/-- The session with the file that it reads, whose contents are looked up again. -/
def Session.resume (reading : Option OpenFile) (s : HostedSession) : HostedSession :=
  match reading with
  | none => { s with hostState.reading := none }
  | some f =>
    let f := f.reread s.hostState.files
    { s with source.unread := f.resume s.source.unread, hostState.reading := some f }

/-- Runs an action that reads another file, or none, and then goes on with the
file that the session read before. -/
def aside {α : Type} (reading : Option OpenFile) (m : HostedM α) : HostedM α := fun s =>
  let outer := s.hostState.reading.map (·.advance s.source.unread)
  match m { s with hostState.reading := reading } with
  | .ok a s => .ok a (s.resume outer)
  | .error failure s => .error failure (s.resume outer)

/-- Runs a file that may be written anew while it is read. -/
def processHostedFile (host : Host (List Request) Desk) (path : String) : HostedM Ending := do
  let files := (← get).hostState.files
  match files.openFile? path with
  | some f => aside f (runSource host (f.source path))
  | none => aside none (processFile host files path)

/-- The files after one was written. A file that cannot be written is left out. -/
def writeFile (path : String) (file : File) : HostedM Unit :=
  modify fun s =>
    match s.hostState.files.write path file with
    | .ok files => { s with hostState.files := files }
    | .error _ => s

def Request.perform (host : Host (List Request) Desk) (name : String) : Request → HostedM Reply
  | processText path text => Reply.ending <$> aside none (Forth.processText host path text)
  | processFile path contents => do
    if let some file := contents then writeFile path file
    Reply.ending <$> processHostedFile host path
  | run => Reply.ending <$> Forth.run host
  | push v => do
    Session.push v
    return .nothing
  | pop => Reply.value <$> Session.pop
  | clearStack => do
    Session.clearStack
    return .nothing
  | nextToken => Reply.ofOption .token <$> Session.nextToken
  | restOfLine => Reply.ofOption .text <$> Session.restOfLine
  | print text => do
    Session.print text
    return .nothing
  | flush => do
    Session.flush
    return .nothing
  | addAlias newName existing => do
    match (← get).dictionary.addAlias newName existing with
    | .ok dictionary =>
      modify fun s => { s with dictionary }
      return .nothing
    | .error failure => throw failure
  | find word => do
    return Reply.ofOption (fun w => .word (w.withBehavior ())) ((← get).dictionary.find? word)
  | resolve t => do
    return Reply.ofOption (fun w => .word (w.withBehavior ())) ((← get).dictionary.resolve t)
  | execute t => do
    match (← get).dictionary.resolve t with
    | some w =>
      Forth.execute host t.location w
      return .executed
    | none => return .unresolved
  | evaluate t => do
    Forth.evaluate host t
    return .nothing
  | compile path text invoked => do
    let steps ← compileTokens host (← ofExcept (tokenize path text))
    if invoked then invoke host (.compiled steps) name
    return .compiled steps.length
  | defineFromText word location path text => do
    defineFromTokens host location word (← ofExcept (tokenize path text))
    return .defined
  | define w => do
    defineWord (w.withBehavior (.host w.behavior))
    return .nothing
  | redefine w source => do
    match (← get).dictionary.find? source with
    | some existing =>
      defineWord (w.withBehavior existing.behavior)
      return .defined
    | none => return .nothing
  | listing => do return .text (← ofExcept (← get).dictionary.listing)
  | renderStack => do return .text (Stack.render (← get).stack)
  | requestExit => do
    Session.requestExit
    return .nothing
  | exiting => do return .flag (← get).exiting
  | current => do return Reply.ofOption .location (← get).current
  | requireDepth needed => Reply.flag <$> Session.requireDepth name needed
  | definePrimitives => do
    modify fun s => { s with dictionary := s.dictionary.definePrimitives }
    return .nothing
  | fail cause => Session.fail cause

def note (name : String) (request : Request) (m : HostedM Reply) : HostedM Unit := fun s =>
  let noted (outcome : Except Failure Reply) (s : HostedSession) : HostedSession :=
    { s with hostState.notes := { name, request, outcome } :: s.hostState.notes }
  match m s with
  | .ok reply s => .ok () (noted (.ok reply) s)
  | .error failure s => .error failure (noted (.error failure) s)

/-- The behavior of words defined from outside, nested at most so deeply. -/
def hostWithin : Nat → Host (List Request) Desk
  | 0 => fun _ _ => throw { cause := .io "requests nested too deeply" }
  | depth + 1 => fun requests name =>
    requests.forM fun request => note name request (request.perform (hostWithin depth) name)

def Request.nestingLimit : Nat := 100000

def Host.requests : Host (List Request) Desk :=
  hostWithin Request.nestingLimit

end Forth
