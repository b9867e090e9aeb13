import Sponge.ByteStream.Refinement
import Sponge.Lib.Digits

/-!
# The test harness of the byte stream

A test is a script: actions on a stream, and expectations of what its accessors answer. The harness
executes one step at a time, keeps the texts of those that went well, and at the first expectation
that is not met it writes a report and throws; the test program then ends with a failure. An
exception of the stream itself is caught by another handler, with another text.

The harness sees only the ring buffer. That its verdict is the one of the specification is a
theorem: a test program succeeds **exactly if the bounded queue meets all expectations** of its
scripts, and otherwise the report names the first step that the queue does not agree with, with the
queue's own answer as far as `what()` shows it. The handler for exceptions is never entered.

`byte_stream_many_writes` draws its script at random. It succeeds whatever it draws.
-/

open Cpp ByteStream

/-! ### Steps -/

/-- `ByteStreamTestStep` and the classes derived from it. -/
inductive TestStep where
  | endInput
  | write (data : Bytes) (bytesWritten : Option ℕ)
  | pop (len : ℕ)
  | inputEnded (inputEnded : Bool)
  | bufferEmpty (bufferEmpty : Bool)
  | eof (eof : Bool)
  | bufferSize (bufferSize : ℕ)
  | bytesWritten (bytesWritten : ℕ)
  | bytesRead (bytesRead : ℕ)
  | remainingCapacity (remainingCapacity : ℕ)
  | peek (output : Bytes)
  deriving DecidableEq, Repr

namespace TestStep

/-- `to_string` of a `size_t`. -/
def sizeText (n : ℕ) : Bytes := Digits.text 10 n

/-- `to_string` of a `bool`, which is promoted to `int`. -/
def boolText (b : Bool) : Bytes := if b then ascii "1" else ascii "0"

def description : TestStep → Bytes
  | .endInput => ascii "end input"
  | .write data _ => ascii "write \"" ++ data ++ ascii "\" to the stream"
  | .pop len => ascii "pop " ++ sizeText len
  | .inputEnded b => ascii "input_ended: " ++ boolText b
  | .bufferEmpty b => ascii "buffer_empty: " ++ boolText b
  | .eof b => ascii "eof: " ++ boolText b
  | .bufferSize n => ascii "buffer_size: " ++ sizeText n
  | .bytesWritten n => ascii "bytes_written: " ++ sizeText n
  | .bytesRead n => ascii "bytes_read: " ++ sizeText n
  | .remainingCapacity n => ascii "remaining_capacity: " ++ sizeText n
  | .peek output => ascii "\"" ++ output ++ ascii "\" at the front of the stream"

/-- Whether a step is a `ByteStreamAction`. The others are `ByteStreamExpectation`s. -/
def isAction : TestStep → Bool
  | .endInput => true
  | .write _ _ => true
  | .pop _ => true
  | _ => false

/-- `operator std::string`. -/
def text (step : TestStep) : Bytes :=
  (if step.isAction then ascii "     Action: " else ascii "Expectation: ") ++ step.description

/-- `ByteStreamExpectationViolation::property`, with the values as texts. -/
def property (propertyName : String) (expected actual : Bytes) : Bytes :=
  ascii "The ByteStream should have had " ++ ascii propertyName ++ ascii " equal to " ++ expected ++
    ascii " but instead it was " ++ actual

/-- Compare an answer with what is expected. The error is what the violation says. -/
def expect {α : Type} [DecidableEq α] (toText : α → Bytes) (propertyName : String)
    (expected actual : α) : Except Bytes Unit :=
  if actual ≠ expected then .error (property propertyName (toText expected) (toText actual))
  else .ok ()

/-- The comparison in `Peek`. -/
def expectFront (output found : Bytes) : Except Bytes Unit :=
  if found ≠ output then
    .error (ascii "Expected \"" ++ output ++ ascii "\" at the front of the stream, but found \"" ++
      found ++ ascii "\"")
  else .ok ()

/-- What `write` has returned, compared with the number that was given to `with_bytes_written`. -/
def expectWritten (written : Option ℕ) (n : ℕ) : Except Bytes Unit :=
  match written with
  | none => .ok ()
  | some m => expect sizeText "bytes_written" m n

/-- `execute`: the violation that is thrown, if any, and the stream afterwards. -/
def execute (step : TestStep) (bs : ByteStream) : Eval Exn (Except Bytes Unit × ByteStream) :=
  match step with
  | .endInput => pure (.ok (), bs.endInput)
  | .write data written => do
    let (n, bs') ← bs.write data
    pure (expectWritten written n, bs')
  | .pop len => do
    let bs' ← bs.popOutput len
    pure (.ok (), bs')
  | .inputEnded b => pure (expect boolText "input_ended" b bs.inputEnded, bs)
  | .bufferEmpty b => pure (expect boolText "buffer_empty" b bs.bufferEmpty, bs)
  | .eof b => pure (expect boolText "eof" b bs.eof, bs)
  | .bufferSize n => do
    let size ← bs.bufferSize
    pure (expect sizeText "buffer_size" n size, bs)
  | .bytesWritten n => pure (expect sizeText "bytes_written" n bs.bytesWritten, bs)
  | .bytesRead n => pure (expect sizeText "bytes_read" n bs.bytesRead, bs)
  | .remainingCapacity n => do
    let room ← bs.remainingCapacity
    pure (expect sizeText "remaining_capacity" n room, bs)
  | .peek output => do
    let found ← bs.peekOutput output.length
    pure (expectFront output found, bs)

end TestStep

/-! ### The harness -/

/-- `ByteStreamTestHarness`. -/
structure Harness where
  testName : Bytes
  byteStream : ByteStream
  stepsExecuted : List Bytes
  deriving DecidableEq, Repr

/-- What becomes of the execution of steps. -/
structure Execution where
  /-- What the exception says that is thrown, if one is. -/
  thrown : Option Bytes
  cerr : Bytes
  harness : Harness
  deriving DecidableEq, Repr

namespace Harness

/-- The first of the steps that have gone well. -/
def initialized (capacity : ℕ) : Bytes :=
  ascii "Initialized with (" ++ ascii "capacity=" ++ Digits.text 10 capacity ++ ascii ")"

def construct (testName : Bytes) (capacity : ℕ) : Eval Exn Harness := do
  let byteStream ← ByteStream.construct capacity
  pure { testName, byteStream, stepsExecuted := [initialized capacity] }

/-- What is written when a step fails. The message is written as the C string that `what()` gives,
and the steps as strings. -/
def report (stepsExecuted : List Bytes) (step : TestStep) (kind : String) (message : Bytes) :
    Bytes :=
  ascii "Test Failure on expectation:\n\t" ++ step.text ++ ascii kind ++ cStr message ++
    ascii "\n\nList of steps that executed successfully:" ++
    stepsExecuted.flatMap (ascii "\n\t" ++ ·) ++ ascii "\n" ++ ascii "\n"

/-- `execute`. What an exception of the stream says is an argument. -/
def execute (what : Exn → Bytes) (h : Harness) (step : TestStep) : Eval Exn Execution :=
  match step.execute h.byteStream with
  | .ok (.ok _, bs) => pure ⟨none, [],
      { h with byteStream := bs, stepsExecuted := h.stepsExecuted ++ [step.text] }⟩
  | .ok (.error message, bs) => pure
      ⟨some (ascii "The test \"" ++ h.testName ++ ascii "\" failed"),
        report h.stepsExecuted step "\n\nFailure message:\n\t" message, { h with byteStream := bs }⟩
  -- only `peek_output` can throw, and it does not change the stream
  | .error (.throws e) => pure
      ⟨some (ascii "The test \"" ++ h.testName ++
          ascii "\" caused your implementation to throw an exception!"),
        report h.stepsExecuted step "\n\nException:\n\t" (what e), h⟩
  | .error (.undefined u) => .error (.undefined u)

/-- The steps of a script, up to the first exception. -/
def executeAll (what : Exn → Bytes) : List TestStep → Harness → Eval Exn Execution
  | [], h => pure ⟨none, [], h⟩
  | step :: steps, h => do
    let x ← h.execute what step
    match x.thrown with
    | some message => pure ⟨some message, x.cerr, x.harness⟩
    | none =>
      let y ← executeAll what steps x.harness
      pure ⟨y.thrown, x.cerr ++ y.cerr, y.harness⟩

/-! ### Test programs -/

/-- One test: a harness and its script. -/
structure Test where
  testName : Bytes
  capacity : ℕ
  steps : List TestStep
  deriving DecidableEq, Repr

/-- A block of a test program, with the harness that its constructor has made: what the exception
says that leaves the block, if one does, and `cerr`. -/
def block (what : Exn → Bytes) (steps : List TestStep) :
    Eval Exn Harness → Eval Exn (Option Bytes × Bytes)
  | .ok h => do
    let x ← h.executeAll what steps
    pure (x.thrown, x.cerr)
  | .error (.throws e) => pure (some (what e), [])
  | .error (.undefined u) => .error (.undefined u)

def Test.run (what : Exn → Bytes) (t : Test) : Eval Exn (Option Bytes × Bytes) :=
  block what t.steps (construct t.testName t.capacity)

/-- The handler in `main`, which writes `what()`. -/
def caught (message : Bytes) : Bytes := ascii "Exception: " ++ cStr message ++ ascii "\n"

/-- `main` of a test program: its exit status and `cerr`. -/
def main (what : Exn → Bytes) : List Test → Eval Exn (ℤ × Bytes)
  | [] => pure (0, [])
  | t :: tests => do
    let (thrown, cerr) ← t.run what
    match thrown with
    | some message => pure (1, cerr ++ caught message)
    | none =>
      let (status, cerr') ← main what tests
      pure (status, cerr ++ cerr')

end Harness

/-! ### What the queue says -/

namespace Fifo

variable {c : ℕ}

/-- What a step does to the queue. -/
def afterStep (f : Fifo c) : TestStep → Fifo c
  | .endInput => f.endInput
  | .write data _ => (f.write data).2
  | .pop len => f.pop len
  | _ => f

/-- The queue agrees with a step: an action has no expectation but the number of bytes that `write`
returns, and a string is at the front if it is a **prefix** of the queue. -/
def Meets (f : Fifo c) : TestStep → Prop
  | .endInput => True
  | .write data written => ∀ n ∈ written, f.accepts data = n
  | .pop _ => True
  | .inputEnded b => f.ended = b
  | .bufferEmpty b => f.queue = [] ↔ b = true
  | .eof b => f.ended = true ∧ f.queue = [] ↔ b = true
  | .bufferSize n => f.queue.length = n
  | .bytesWritten n => f.written % 2 ^ 64 = n
  | .bytesRead n => f.popped % 2 ^ 64 = n
  | .remainingCapacity n => c - f.queue.length = n
  | .peek output => output <+: f.queue

/-- The queue agrees with each step of a script. -/
def MeetsAll : Fifo c → List TestStep → Prop
  | _, [] => True
  | f, step :: steps => f.Meets step ∧ MeetsAll (f.afterStep step) steps

/-- The verdict on a step by the answers of the queue. -/
def judge (f : Fifo c) : TestStep → Except Bytes Unit
  | .endInput => .ok ()
  | .write data written => TestStep.expectWritten written (f.accepts data)
  | .pop _ => .ok ()
  | .inputEnded b => TestStep.expect TestStep.boolText "input_ended" b f.accessors.inputEnded
  | .bufferEmpty b => TestStep.expect TestStep.boolText "buffer_empty" b f.accessors.bufferEmpty
  | .eof b => TestStep.expect TestStep.boolText "eof" b f.accessors.eof
  | .bufferSize n => TestStep.expect TestStep.sizeText "buffer_size" n f.accessors.bufferSize
  | .bytesWritten n => TestStep.expect TestStep.sizeText "bytes_written" n f.accessors.bytesWritten
  | .bytesRead n => TestStep.expect TestStep.sizeText "bytes_read" n f.accessors.bytesRead
  | .remainingCapacity n =>
    TestStep.expect TestStep.sizeText "remaining_capacity" n f.accessors.remainingCapacity
  | .peek output => TestStep.expectFront output (f.peek output.length)

theorem ite_eq_ok_iff {p : Prop} [Decidable p] (message : Bytes) :
    (if ¬p then Except.error message else Except.ok ()) = .ok () ↔ p := by
  split
  · rename_i hp
    exact ⟨fun h ↦ absurd h (by simp), fun h ↦ absurd h hp⟩
  · rename_i hp
    exact ⟨fun _ ↦ not_not.1 hp, fun _ ↦ rfl⟩

theorem expect_eq_ok_iff {α : Type} [DecidableEq α] (toText : α → Bytes) (propertyName : String)
    (expected actual : α) :
    TestStep.expect toText propertyName expected actual = .ok () ↔ actual = expected :=
  ite_eq_ok_iff _

theorem peek_eq_iff (f : Fifo c) (output : Bytes) :
    f.peek output.length = output ↔ output <+: f.queue := by
  rw [peek, ← List.take_eq_take_min, List.prefix_iff_eq_take, eq_comm]

/-- The verdict is the agreement. -/
theorem judge_eq_ok_iff (f : Fifo c) (step : TestStep) : f.judge step = .ok () ↔ f.Meets step := by
  cases step with
  | endInput => exact ⟨fun _ ↦ trivial, fun _ ↦ rfl⟩
  | pop len => exact ⟨fun _ ↦ trivial, fun _ ↦ rfl⟩
  | write data written =>
    rcases written with - | n
    · exact ⟨fun _ _ h ↦ absurd h (by simp), fun _ ↦ rfl⟩
    · rw [judge, Meets, TestStep.expectWritten, expect_eq_ok_iff]
      simp
  | inputEnded b => exact expect_eq_ok_iff _ _ _ _
  | bufferEmpty b =>
    rw [judge, Meets, expect_eq_ok_iff, accessors]
    cases b <;> simp
  | eof b =>
    rw [judge, Meets, expect_eq_ok_iff, accessors]
    cases b <;> simp
  | bufferSize n => exact expect_eq_ok_iff _ _ _ _
  | bytesWritten n => exact expect_eq_ok_iff _ _ _ _
  | bytesRead n => exact expect_eq_ok_iff _ _ _ _
  | remainingCapacity n => exact expect_eq_ok_iff _ _ _ _
  | peek output =>
    rw [judge, Meets, TestStep.expectFront, ← peek_eq_iff]
    exact ite_eq_ok_iff _

end Fifo

/-! ### The harness agrees with the queue -/

namespace Harness

variable {c : ℕ} {f : Fifo c} (what : Exn → Bytes)

/-- The accessors that cannot fail answer as the queue does. -/
theorem answers {bs : ByteStream} (h : Represents bs f) :
    bs.inputEnded = f.accessors.inputEnded ∧ bs.bufferEmpty = f.accessors.bufferEmpty ∧
      bs.eof = f.accessors.eof ∧ bs.bytesWritten = f.accessors.bytesWritten ∧
      bs.bytesRead = f.accessors.bytesRead := by
  simp [Fifo.accessors, ByteStream.inputEnded, ByteStream.eof, ByteStream.bytesWritten,
    ByteStream.bytesRead, h.bufferEmpty_eq, h.cntWrite_eq, h.cntRead_eq, h.inputActive_eq]

/-- **One step.** The stream answers what the queue answers. -/
theorem execute_step_spec (hc : c ≤ 2 ^ 30) {bs : ByteStream} (h : Represents bs f)
    (step : TestStep) :
    ∃ bs', step.execute bs = pure (f.judge step, bs') ∧ Represents bs' (f.afterStep step) := by
  have hlt : c < 2 ^ 31 := by omega
  have hfits := h.fits hc
  obtain ⟨hended, hempty, heof, hwritten, hread⟩ := answers h
  cases step with
  | endInput => exact ⟨_, rfl, h.endInput_spec⟩
  | write data written =>
    obtain ⟨bs', hbs', hrep⟩ := h.write_spec hlt hfits data
    exact ⟨bs', by rw [TestStep.execute, hbs', pure_bind]; rfl, hrep⟩
  | pop len =>
    obtain ⟨bs', hbs', hrep⟩ := h.popOutput_spec hlt hfits len
    exact ⟨bs', by rw [TestStep.execute, hbs', pure_bind]; rfl, hrep⟩
  | inputEnded b => exact ⟨bs, by rw [TestStep.execute, hended]; rfl, h⟩
  | bufferEmpty b => exact ⟨bs, by rw [TestStep.execute, hempty]; rfl, h⟩
  | eof b => exact ⟨bs, by rw [TestStep.execute, heof]; rfl, h⟩
  | bufferSize n =>
    exact ⟨bs, by rw [TestStep.execute, h.bufferSize_eq hlt hfits, pure_bind]; rfl, h⟩
  | bytesWritten n => exact ⟨bs, by rw [TestStep.execute, hwritten]; rfl, h⟩
  | bytesRead n => exact ⟨bs, by rw [TestStep.execute, hread]; rfl, h⟩
  | remainingCapacity n =>
    exact ⟨bs, by rw [TestStep.execute, h.remainingCapacity_eq hlt hfits, pure_bind]; rfl, h⟩
  | peek output =>
    exact ⟨bs, by rw [TestStep.execute, h.peekOutput_eq hlt hfits, pure_bind]; rfl, h⟩

/-- The harness after steps that have gone well. -/
def advanced (h : Harness) (bs : ByteStream) (steps : List TestStep) : Harness :=
  { h with byteStream := bs, stepsExecuted := h.stepsExecuted ++ steps.map TestStep.text }

theorem execute_of_meets (hc : c ≤ 2 ^ 30) {h : Harness} (hrep : Represents h.byteStream f)
    {step : TestStep} (hmeets : f.Meets step) :
    ∃ bs, h.execute what step = pure ⟨none, [], h.advanced bs [step]⟩ ∧
      Represents bs (f.afterStep step) := by
  obtain ⟨bs, hbs, hrep'⟩ := execute_step_spec hc hrep step
  rw [(f.judge_eq_ok_iff step).2 hmeets] at hbs
  refine ⟨bs, ?_, hrep'⟩
  rw [execute, hbs]
  rfl

theorem execute_of_not_meets (hc : c ≤ 2 ^ 30) {h : Harness} (hrep : Represents h.byteStream f)
    {step : TestStep} {message : Bytes} (hjudge : f.judge step = .error message) :
    ∃ bs, h.execute what step =
      pure ⟨some (ascii "The test \"" ++ h.testName ++ ascii "\" failed"),
        report h.stepsExecuted step "\n\nFailure message:\n\t" message,
        { h with byteStream := bs }⟩ := by
  obtain ⟨bs, hbs, -⟩ := execute_step_spec hc hrep step
  rw [hjudge] at hbs
  refine ⟨bs, ?_⟩
  rw [execute, hbs]
  rfl

/-- **The steps the queue agrees with** go well, and what follows them is executed from there. -/
theorem executeAll_of_meetsAll (hc : c ≤ 2 ^ 30) {steps : List TestStep} {h : Harness}
    (hrep : Represents h.byteStream f) (hmeets : f.MeetsAll steps) :
    ∃ bs, Represents bs (steps.foldl Fifo.afterStep f) ∧
      ∀ rest, h.executeAll what (steps ++ rest) = (h.advanced bs steps).executeAll what rest := by
  induction steps generalizing f h with
  | nil =>
    refine ⟨h.byteStream, hrep, fun rest ↦ ?_⟩
    rw [advanced, List.map_nil, List.append_nil]
    rfl
  | cons step steps ih =>
    obtain ⟨bs₁, hstep, hrep₁⟩ := execute_of_meets what hc hrep hmeets.1
    obtain ⟨bs₂, hrep₂, hrest⟩ := ih (h := h.advanced bs₁ [step]) hrep₁ hmeets.2
    refine ⟨bs₂, hrep₂, fun rest ↦ ?_⟩
    have hadvanced :
        (h.advanced bs₁ [step]).advanced bs₂ steps = h.advanced bs₂ (step :: steps) := by
      rw [advanced, advanced, advanced, List.map_cons, List.append_assoc]
      rfl
    rw [List.cons_append, executeAll, hstep, pure_bind, ← hadvanced, ← hrest rest]
    exact bind_pure _

/-- A script either meets all expectations or has a first that it does not. -/
theorem meetsAll_or (f : Fifo c) (steps : List TestStep) :
    f.MeetsAll steps ∨ ∃ before step after, steps = before ++ step :: after ∧ f.MeetsAll before ∧
      ¬(before.foldl Fifo.afterStep f).Meets step := by
  induction steps generalizing f with
  | nil => exact Or.inl trivial
  | cons step steps ih =>
    by_cases hstep : f.Meets step
    · rcases ih (f.afterStep step) with hall | ⟨before, next, after, rfl, hbefore, hnext⟩
      · exact Or.inl ⟨hstep, hall⟩
      · exact Or.inr ⟨step :: before, next, after, rfl, ⟨hstep, hbefore⟩, hnext⟩
    · exact Or.inr ⟨[], step, steps, rfl, trivial, hstep⟩

/-- The queue meets all expectations of a test. -/
def Test.Passes (t : Test) : Prop := (Fifo.empty t.capacity).MeetsAll t.steps

theorem construct_eq {t : Test} (hc : t.capacity ≤ 2 ^ 30) :
    ∃ h, construct t.testName t.capacity = .ok h ∧ h.testName = t.testName ∧
      h.stepsExecuted = [initialized t.capacity] ∧
      Represents h.byteStream (Fifo.empty t.capacity) := by
  obtain ⟨bs, hbs, hrep⟩ := construct_spec (c := t.capacity) (by omega)
  exact ⟨_, by rw [construct, hbs, pure_bind]; rfl, rfl, rfl, hrep⟩

theorem run_of_passes {t : Test} (hc : t.capacity ≤ 2 ^ 30) (hpasses : t.Passes) :
    t.run what = pure (none, []) := by
  obtain ⟨h, hconstruct, -, -, hrep⟩ := construct_eq hc
  obtain ⟨bs, -, hrest⟩ := executeAll_of_meetsAll what hc hrep hpasses
  have hall := hrest []
  rw [List.append_nil] at hall
  rw [Test.run, hconstruct, block, hall]
  rfl

/-- What is written about a test that fails: the steps that went well before the one that did not,
and what is wrong with that. -/
def failureText (t : Test) (before : List TestStep) (step : TestStep) (message : Bytes) : Bytes :=
  report (initialized t.capacity :: before.map TestStep.text) step "\n\nFailure message:\n\t"
    message ++ caught (ascii "The test \"" ++ t.testName ++ ascii "\" failed")

theorem run_of_not_meets {t : Test} (hc : t.capacity ≤ 2 ^ 30) {before after : List TestStep}
    {step : TestStep} (hsteps : t.steps = before ++ step :: after)
    (hbefore : (Fifo.empty t.capacity).MeetsAll before) {message : Bytes}
    (hjudge : (before.foldl Fifo.afterStep (Fifo.empty t.capacity)).judge step = .error message) :
    t.run what = pure (some (ascii "The test \"" ++ t.testName ++ ascii "\" failed"),
      report (initialized t.capacity :: before.map TestStep.text) step
        "\n\nFailure message:\n\t" message) := by
  obtain ⟨h, hconstruct, hname, hinit, hrep⟩ := construct_eq hc
  obtain ⟨bs, hrep', hrest⟩ := executeAll_of_meetsAll what hc hrep hbefore
  obtain ⟨bs', hexecute⟩ := execute_of_not_meets what hc
    (show Represents (h.advanced bs before).byteStream _ from hrep') hjudge
  have hall := hrest (step :: after)
  rw [← hsteps, executeAll, hexecute, pure_bind] at hall
  rw [Test.run, hconstruct, block, hall, ← hname, ← List.singleton_append, ← hinit]
  rfl

/-- **The verdict of a test program is the queue's.** Either the queue meets all expectations, and
the program succeeds without a word; or there is a first test and a first step of it that the queue
does not agree with, and the program fails, says what the queue answers there, up to the first zero
byte, and lists exactly the steps before it. -/
theorem main_verdict (tests : List Test) (hc : ∀ t ∈ tests, t.capacity ≤ 2 ^ 30) :
    ((∀ t ∈ tests, t.Passes) ∧ main what tests = pure (0, [])) ∨
    ∃ earlier t later before step after message, tests = earlier ++ t :: later ∧
      (∀ t ∈ earlier, t.Passes) ∧ t.steps = before ++ step :: after ∧
      (Fifo.empty t.capacity).MeetsAll before ∧
      ¬(before.foldl Fifo.afterStep (Fifo.empty t.capacity)).Meets step ∧
      (before.foldl Fifo.afterStep (Fifo.empty t.capacity)).judge step = .error message ∧
      main what tests = pure (1, failureText t before step message) := by
  induction tests with
  | nil => exact Or.inl ⟨fun _ ht ↦ absurd ht List.not_mem_nil, rfl⟩
  | cons t tests ih =>
    have ht := hc t List.mem_cons_self
    rcases meetsAll_or (Fifo.empty t.capacity) t.steps with
      hall | ⟨before, step, after, hsteps, hbefore, hstep⟩
    · have hmain : main what (t :: tests) = main what tests := by
        rw [main, run_of_passes what ht hall, pure_bind]
        exact bind_pure _
      rw [hmain]
      rcases ih fun t' ht' ↦ hc t' (List.mem_cons_of_mem _ ht') with
        ⟨hpass, hmain⟩ | ⟨earlier, t', later, before, step, after, message, rfl, hearlier, hrest⟩
      · exact Or.inl ⟨List.forall_mem_cons.2 ⟨hall, hpass⟩, hmain⟩
      · exact Or.inr ⟨t :: earlier, t', later, before, step, after, message, rfl,
          List.forall_mem_cons.2 ⟨hall, hearlier⟩, hrest⟩
    · rcases hjudge : (before.foldl Fifo.afterStep (Fifo.empty t.capacity)).judge step with
        message | ⟨⟩
      · exact Or.inr ⟨[], t, tests, before, step, after, message, rfl,
          fun _ h ↦ absurd h List.not_mem_nil, hsteps, hbefore, hstep, hjudge,
          by rw [main, run_of_not_meets what ht hsteps hbefore hjudge, pure_bind]; rfl⟩
      · exact absurd ((Fifo.judge_eq_ok_iff _ _).1 hjudge) hstep

/-- Two tests: the second expects too much to be accepted. -/
theorem main_verdict_overwrite :
    let tests : List Test := [⟨ascii "one", 15, [.write (ascii "cat") none, .peek (ascii "ca")]⟩,
      ⟨ascii "two", 2, [.write (ascii "cat") (some 3), .bufferSize 2]⟩]
    (∀ t ∈ tests, t.capacity ≤ 2 ^ 30) ∧ ∃ cerr, main (fun _ ↦ []) tests = pure (1, cerr) := by
  intro tests
  have hc : ∀ t ∈ tests, t.capacity ≤ 2 ^ 30 := by
    simp [tests]
  refine ⟨hc, ?_⟩
  rcases main_verdict (fun _ ↦ []) tests hc with ⟨hpass, -⟩ | ⟨-, t, -, before, step, -, message, -,
    -, -, -, -, -, hmain⟩
  · have htwo := hpass _ (List.mem_cons_of_mem _ List.mem_cons_self)
    exact absurd (htwo.1 3 rfl) (by decide)
  · exact ⟨_, hmain⟩

/-! ### Many writes -/

/-- `NREPS`. -/
def nreps : ℕ := 1000

/-- `MIN_WRITE`. -/
def minWrite : ℕ := 10

/-- `MAX_WRITE`. -/
def maxWrite : ℕ := 200

/-- `CAPACITY`. -/
def manyCapacity : ℕ := maxWrite * nreps

/-- The string of a repetition: its length and its letters are drawn at random. The draws of the
whole program are `rd`, and `k` of them have been made. -/
def drawString (rd : ℕ → ℕ) (k : ℕ) : Bytes :=
  (List.range (minWrite + rd k % (maxWrite - minWrite))).map fun j ↦
    UInt8.ofNat (97 + rd (k + 1 + j) % 26)

/-- The script of `byte_stream_many_writes`. -/
def manyWrites (rd : ℕ → ℕ) : ℕ → ℕ → ℕ → List TestStep
  | 0, _, _ => []
  | reps + 1, k, acc =>
    let d := drawString rd k
    let acc := szAdd acc d.length
    [.write d (some d.length), .inputEnded false, .bufferEmpty false, .eof false, .bytesRead 0,
      .bytesWritten acc, .remainingCapacity (szSub manyCapacity acc), .bufferSize acc] ++
      manyWrites rd reps (k + 1 + d.length) acc

theorem length_drawString (rd : ℕ → ℕ) (k : ℕ) :
    0 < (drawString rd k).length ∧ (drawString rd k).length ≤ maxWrite := by
  have hmod : rd k % 190 < 190 := Nat.mod_lt _ (by decide)
  rw [drawString, List.length_map, List.length_range, minWrite, maxWrite]
  omega

/-- Nothing has been popped, and `acc` bytes have been accepted. -/
structure Filled (f : Fifo manyCapacity) (acc : ℕ) : Prop where
  length_eq : f.queue.length = acc
  popped_eq : f.popped = 0
  ended_eq : f.ended = false

theorem Filled.written_eq {f : Fifo manyCapacity} {acc : ℕ} (h : Filled f acc) :
    f.written = acc := by
  rw [f.balance, h.popped_eq, h.length_eq, Nat.zero_add]

theorem Filled.write {f : Fifo manyCapacity} {acc : ℕ} (h : Filled f acc) {d : Bytes}
    (hroom : acc + d.length ≤ manyCapacity) :
    f.accepts d = d.length ∧ Filled (f.write d).2 (acc + d.length) := by
  have haccepts : f.accepts d = d.length := by
    rw [Fifo.accepts, h.length_eq]
    omega
  refine ⟨haccepts, ?_, h.popped_eq, h.ended_eq⟩
  rw [Fifo.write, Fifo.length_append_take, haccepts, h.length_eq]

/-- What is expected after a write. -/
theorem Filled.meetsAll {f : Fifo manyCapacity} {acc : ℕ} (h : Filled f acc) (hpos : 0 < acc)
    (hle : acc ≤ manyCapacity) {rest : List TestStep} (hrest : f.MeetsAll rest) :
    f.MeetsAll ([.inputEnded false, .bufferEmpty false, .eof false, .bytesRead 0, .bytesWritten acc,
      .remainingCapacity (szSub manyCapacity acc), .bufferSize acc] ++ rest) := by
  have hcapacity : manyCapacity < 2 ^ 64 := by decide
  have hne : f.queue ≠ [] := List.length_pos_iff.1 (h.length_eq ▸ hpos)
  refine ⟨h.ended_eq, iff_of_false hne (by simp), iff_of_false (fun h' ↦ hne h'.2) (by simp), ?_,
    ?_, ?_, h.length_eq, hrest⟩
  · show f.popped % 2 ^ 64 = 0
    rw [h.popped_eq, Nat.zero_mod]
  · show f.written % 2 ^ 64 = acc
    rw [h.written_eq]
    omega
  · show manyCapacity - f.queue.length = szSub manyCapacity acc
    rw [h.length_eq, szSub_eq hle hcapacity]

/-- **Every repetition goes well**, as long as there is room for the longest string. -/
theorem meetsAll_manyWrites (rd : ℕ → ℕ) (reps : ℕ) {f : Fifo manyCapacity} {acc : ℕ}
    (h : Filled f acc) (hroom : acc + maxWrite * reps ≤ manyCapacity) (k : ℕ) :
    f.MeetsAll (manyWrites rd reps k acc) := by
  induction reps generalizing f acc k with
  | zero => trivial
  | succ reps ih =>
    obtain ⟨hpos, hle⟩ := length_drawString rd k
    have hnext : acc + (drawString rd k).length + maxWrite * reps ≤ manyCapacity := by
      rw [Nat.mul_succ] at hroom
      omega
    have hcapacity : manyCapacity < 2 ^ 64 := by decide
    obtain ⟨haccepts, hfilled⟩ := h.write (d := drawString rd k) (by omega)
    rw [manyWrites, szAdd_eq (by omega)]
    refine ⟨fun n hn ↦ Option.some.inj hn ▸ haccepts, ?_⟩
    exact hfilled.meetsAll (by omega) (by omega) (ih hfilled hnext _)

/-- **The test with random writes succeeds**, whatever is drawn. -/
theorem main_manyWrites (rd : ℕ → ℕ) :
    main what [⟨ascii "many writes", manyCapacity, manyWrites rd nreps 0 0⟩] = pure (0, []) := by
  have hfilled : Filled (Fifo.empty manyCapacity) 0 := ⟨rfl, rfl, rfl⟩
  have hpasses : Test.Passes ⟨ascii "many writes", manyCapacity, manyWrites rd nreps 0 0⟩ :=
    meetsAll_manyWrites rd nreps hfilled (by decide) 0
  rw [main, run_of_passes what (show manyCapacity ≤ 2 ^ 30 by decide) hpasses, pure_bind]
  rfl

end Harness
