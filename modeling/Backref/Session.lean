/-
# A session is a sequence of operations on one chain

A session works on one sequence of bytes and one chain. Each operation is a
question about the chain, a search, or a change, and each has an answer. The
bytes may or may not have zero bytes behind the data; a chain that is asked
about positions past the end reads zeros there either way.

Key definitions: `Session`, `Session.Operation`, `Session.Answer`,
`Session.perform`, `Session.performAll`.
-/
import Backref.Search.Longest

namespace Backref

/-- The bytes that are searched, and the chain over them. -/
structure Session where
  bytes : Array UInt8
  chain : HashChain

namespace Session

inductive Operation where
  | insert (pos : Nat)
  | headOf (pos : Nat)
  | hashAt (pos : Nat)
  | next (pos : Nat)
  | search (comparator : Comparator) (pos head : Nat) (params : Search.Params)
  | clear

inductive Answer where
  | number (n : Nat)
  | link (pos : Option Nat)
  | outcome (o : Search.Outcome)
  | done
  deriving Repr, DecidableEq

def perform (s : Session) : Operation → Answer × Session
  | .insert pos =>
    match s with
    | ⟨bytes, chain⟩ =>
      let (head, chain) := chain.insert bytes pos
      (.number head, ⟨bytes, chain⟩)
  | .headOf pos => (.number (s.chain.headOf s.bytes pos), s)
  | .hashAt pos => (.number (s.chain.hashAt s.bytes pos), s)
  | .next pos => (.link (s.chain.view.next? pos), s)
  | .search comparator pos head params =>
    (.outcome (Search.longest comparator s.bytes s.chain.view pos head params), s)
  | .clear => (.done, { s with chain := s.chain.clear })

/-- The answers to several operations, in order, and the session after them. -/
def performAll (s : Session) : List Operation → List Answer × Session
  | [] => ([], s)
  | op :: ops =>
    let (answer, s) := s.perform op
    let (answers, s) := s.performAll ops
    (answer :: answers, s)

end Session

end Backref
