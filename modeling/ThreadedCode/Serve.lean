import ThreadedCode.Machine.Operands
import ThreadedCode.Machine.Building
import ThreadedCode.Machine.Naming

/-!
The one place where requests are served.
-/
namespace ThreadedCode

variable {σ : Signature}

/-- The step that a request asks for. -/
def perform : (request : Request σ) → Step σ request.Answer
  | .newCell => Machine.newCell
  | .cell id => do (← get).cells.get id
  | .bind cell procedure => Machine.bind cell procedure
  | .setPayload cell payload => Machine.setPayload cell payload
  | .bindLiteral cell value => Machine.bindLiteral cell value
  | .link source dest => Machine.link source dest
  | .inline source dest => Machine.inline source dest
  | .beginWord head => Machine.beginWord head
  | .endWord => Machine.endWord
  | .currentWord => do return (← get).openWords.current?
  | .registerStrategy strategy => Machine.registerStrategy strategy
  | .strategy id => do (← get).copies.get id
  | .createEntry cell => Machine.createEntry cell
  | .entry id => Machine.entry id
  | .entryName id => Machine.entryName id
  | .setEntryCopy entry copy => Machine.setEntryCopy entry copy
  | .define name entry => Machine.define name entry
  | .search name => Machine.search name
  | .noteRegistered count => Step.log (.primitivesRegistered count)
  | .boxFloat x => Machine.boxFloat x
  | .readFloat value => Machine.readFloat value
  | .storeFloat value x => Machine.storeFloat value x
  | .boxText text => Machine.boxText text
  | .readText value => Machine.readText value
  | .push slot => Machine.push slot
  | .pop => Machine.pop
  | .popFloat => Machine.popFloat
  | .nth n => do return (← get).stack.nth? n
  | .clear => modify fun m => { m with stack := m.stack.clear }
  | .print _ => pure ()

/-- Answers a request and keeps a record of it. -/
def serve (request : Request σ) : Step σ request.Answer := do
  let answer ← (perform request).attempt
  Step.emit (.served request answer)
  answer

end ThreadedCode
