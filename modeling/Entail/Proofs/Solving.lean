import Entail.Proofs.Writing
import Entail.Smt.Solver

set_option autoImplicit false

/-! # Asking the solver

For a question that is not answered at once the process is run, and run again while it prints
nothing but white space. Only what the last of these runs prints makes the question proved, and the
counters tell how often that happened. What a question comes to is first told from the outcomes of
its runs; then the answers and counters of any sequence of questions follow. -/

namespace Entail

/-! ## What runs come to -/

namespace ProcessOutcome

/-- The process printed nothing but white space. -/
def isBlank : ProcessOutcome → Bool
  | .output stdout => (Text.trim stdout).isEmpty
  | _ => false

/-- The answer of a process that printed something: the first line, without the white space around
    it. -/
def answer? : ProcessOutcome → Option String
  | .output stdout =>
    if (Text.trim stdout).isEmpty then none
    else some (Text.trim (Text.firstLine (Text.trim stdout)))
  | _ => none

/-- The process was stopped, or the solver says that it ran out of time. -/
def isTimeout : ProcessOutcome → Bool
  | .timedOut => true
  | o => o.answer? == some "timeout"

theorem not_isBlank_of_answer? {o : ProcessOutcome} {answer : String}
    (h : o.answer? = some answer) : o.isBlank = false := by
  cases o with
  | output stdout =>
    rw [answer?] at h
    split at h
    · cases h
    · rename_i hblank
      exact Bool.eq_false_iff.mpr hblank
  | timedOut => rfl
  | failed message => rfl

end ProcessOutcome

namespace Solver

/-- The runs that are started, with these outcomes ahead: as long as a run is blank there is another
    one, but there are no more than `n`. -/
def runsOf (afterwards : ProcessOutcome) : (n : Nat) → List ProcessOutcome → List ProcessOutcome
  | 0, _ => []
  | n + 1, outcomes =>
    if (outcomes.headD afterwards).isBlank then
      outcomes.headD afterwards :: runsOf afterwards n outcomes.tail
    else [outcomes.headD afterwards]

/-- What the last run makes of a question. Without a run, or if it was blank, there is no answer. -/
def replyOf (request : Request) (input : String) : Option ProcessOutcome → Reply
  | none => .failed (.unexpected "" input)
  | some .timedOut => .failed (.timeout request.timeoutMs)
  | some (.failed message) => .failed (.process message)
  | some (.output stdout) =>
    if (Text.trim stdout).isEmpty then .failed (.unexpected "" input)
    else readAnswer request input (Text.trim stdout)

section

variable {afterwards : ProcessOutcome} {n : Nat} {outcomes : List ProcessOutcome}

theorem length_runsOf_le : (runsOf afterwards n outcomes).length ≤ n := by
  induction n generalizing outcomes with
  | zero => exact Nat.le_refl 0
  | succ n ih =>
    rw [runsOf]
    split
    · exact Nat.succ_le_succ ih
    · exact Nat.succ_le_succ (Nat.zero_le n)

/-- Every run but the last one is blank: none is started after one that is not. -/
theorem isBlank_of_mem_dropLast {o : ProcessOutcome}
    (h : o ∈ (runsOf afterwards n outcomes).dropLast) : o.isBlank = true := by
  induction n generalizing outcomes with
  | zero => exact absurd h List.not_mem_nil
  | succ n ih =>
    rw [runsOf] at h
    split at h
    · rename_i hblank
      cases hlater : runsOf afterwards n outcomes.tail with
      | nil => simp [hlater] at h
      | cons later rest =>
        rw [hlater, List.dropLast_cons_cons, ← hlater] at h
        rcases List.mem_cons.mp h with rfl | h
        · exact hblank
        · exact ih h
    · exact absurd h List.not_mem_nil

/-- A further run before which there was a blank one. -/
theorem getLast?_of_isBlank {o last : ProcessOutcome} {later : List ProcessOutcome}
    (hblank : o.isBlank = true) (hlast : last.isBlank = false) :
    (o :: later).getLast? = some last ↔ later.getLast? = some last := by
  rw [List.getLast?_cons]
  cases later.getLast? with
  | some _ => rfl
  | none =>
    refine ⟨fun h => ?_, nofun⟩
    have heq : o = last := Option.some.inj h
    rw [heq, hlast] at hblank
    cases hblank

theorem getD_tail (outcomes : List ProcessOutcome) (i : Nat) (afterwards : ProcessOutcome) :
    outcomes.tail.getD i afterwards = outcomes.getD (i + 1) afterwards := by
  cases outcomes <;> rfl

/-- The last run is the first of the next outcomes that is not blank, if that is among the first
    `n` of them. -/
theorem getLast?_runsOf_iff {last : ProcessOutcome} (hlast : last.isBlank = false) :
    (runsOf afterwards n outcomes).getLast? = some last ↔
      ∃ k < n, (∀ i < k, (outcomes.getD i afterwards).isBlank = true) ∧
        outcomes.getD k afterwards = last := by
  induction n generalizing outcomes with
  | zero => simp [runsOf]
  | succ n ih =>
    have hhead : outcomes.getD 0 afterwards = outcomes.headD afterwards := by cases outcomes <;> rfl
    rw [runsOf]
    split
    · rename_i hblank
      -- a blank run moves the later ones by one place
      rw [getLast?_of_isBlank hblank hlast, ih]
      constructor
      · rintro ⟨k, hk, hbefore, hat⟩
        refine ⟨k + 1, Nat.succ_lt_succ hk, fun i hi => ?_, getD_tail .. ▸ hat⟩
        cases i with
        | zero => rw [hhead, hblank]
        | succ i => rw [← getD_tail, hbefore i (Nat.lt_of_succ_lt_succ hi)]
      · rintro ⟨k, hk, hbefore, hat⟩
        cases k with
        | zero =>
          rw [← hat, hhead, hblank] at hlast
          cases hlast
        | succ k =>
          refine ⟨k, Nat.lt_of_succ_lt_succ hk, fun i hi => ?_, getD_tail .. ▸ hat⟩
          rw [getD_tail, hbefore (i + 1) (Nat.succ_lt_succ hi)]
    · rename_i hdecisive
      constructor
      · intro h
        exact ⟨0, Nat.succ_pos n, nofun, hhead.trans (Option.some.inj h)⟩
      · rintro ⟨k, _, hbefore, hat⟩
        cases k with
        | zero => rw [← hat, hhead]; rfl
        | succ k => exact absurd (hhead ▸ hbefore 0 (Nat.succ_pos k)) hdecisive

example : runsOf .timedOut 4 [.output " \n", .output "unsat\nmore", .timedOut] =
    [.output " \n", .output "unsat\nmore"] := by decide

/-- Running the process takes the outcomes of the runs that are started, and the last of them makes
    the reply. -/
theorem attempts_eq (o : SmtOptions) (request : Request) (input : String) (attempt : Nat) :
    (attempts o request input afterwards n attempt outcomes).outcomes =
        outcomes.drop (runsOf afterwards n outcomes).length ∧
      (attempts o request input afterwards n attempt outcomes).reply =
        replyOf request input (runsOf afterwards n outcomes).getLast? := by
  induction n generalizing attempt outcomes with
  | zero => exact ⟨rfl, rfl⟩
  | succ n ih =>
    rw [attempts, runsOf]
    cases houtcome : outcomes.headD afterwards with
    | timedOut => exact ⟨List.drop_one.symm, rfl⟩
    | failed message => exact ⟨List.drop_one.symm, rfl⟩
    | output stdout =>
      dsimp only
      by_cases hblank : (Text.trim stdout).isEmpty
      · obtain ⟨hleft, hreply⟩ := @ih outcomes.tail (attempt + 1)
        rw [if_pos hblank, ProcessOutcome.isBlank, if_pos hblank, hleft, hreply]
        refine ⟨by rw [List.length_cons, List.drop_tail], ?_⟩
        -- if this was the last run, being blank it leaves the reply as if there had been none
        rw [List.getLast?_cons]
        cases (runsOf afterwards n outcomes.tail).getLast? with
        | none => simp [replyOf, hblank]
        | some last => rfl
      · rw [if_neg hblank, ProcessOutcome.isBlank, if_neg hblank]
        exact ⟨List.drop_one.symm, by simp [replyOf, hblank]⟩

theorem readAnswer_eq_answered_iff (request : Request) (input response : String) :
    readAnswer request input response = .answered true ↔
      Text.trim (Text.firstLine response) = "unsat" := by
  unfold readAnswer
  split <;> simp_all

/-- The reply is a proof just if the last run has the answer `unsat`. -/
theorem replyOf_eq_answered_iff (request : Request) (input : String)
    (last? : Option ProcessOutcome) :
    replyOf request input last? = .answered true ↔
      ∃ last, last? = some last ∧ last.answer? = some "unsat" := by
  match last? with
  | none => simp [replyOf]
  | some .timedOut => simp [replyOf, ProcessOutcome.answer?]
  | some (.failed message) => simp [replyOf, ProcessOutcome.answer?]
  | some (.output stdout) =>
    rw [replyOf]
    split
    · rename_i hblank
      have hanswer : (ProcessOutcome.output stdout).answer? = none := if_pos hblank
      simp [hanswer]
    · rename_i hprinted
      have hanswer : (ProcessOutcome.output stdout).answer? =
          some (Text.trim (Text.firstLine (Text.trim stdout))) := if_neg hprinted
      simp [hanswer, readAnswer_eq_answered_iff]

/-- The reply tells that there was no time. -/
def Reply.isTimeout : Reply → Bool
  | .failed (.timeout _) => true
  | _ => false

theorem isTimeout_readAnswer (request : Request) (input response : String) :
    (readAnswer request input response).isTimeout =
      (some (Text.trim (Text.firstLine response)) == some "timeout") := by
  unfold readAnswer
  split <;> simp_all [Reply.isTimeout]

theorem isTimeout_replyOf (request : Request) (input : String) (last? : Option ProcessOutcome) :
    (replyOf request input last?).isTimeout = last?.any ProcessOutcome.isTimeout := by
  match last? with
  | none => rfl
  | some .timedOut => rfl
  | some (.failed message) => rfl
  | some (.output stdout) =>
    rw [replyOf, Option.any_some, ProcessOutcome.isTimeout, ProcessOutcome.answer?]
    · split
      · rfl
      · exact isTimeout_readAnswer request input _
    · nofun

end

end Solver

/-! ## Questions -/

namespace Question

def request : Question → Request
  | .checkUnsat request _ => request
  | .implies request _ _ _ => request

/-- The answer to a question that takes a shortcut. -/
def shortcut? : Question → Option Bool
  | .checkUnsat _ φ => if φ.isFalse then some true else if φ.isTrue then some false else none
  | .implies _ l r _ => if l.isFalse || r.isTrue then some true else none

/-- Formulas are the only reason why there is no query. -/
theorem query_eq_error {q : Question} {e : SmtError} (h : q.query = .error e) :
    ∃ what, e = .untranslatable what := by
  cases q with
  | checkUnsat request φ => exact Smt.constraintQuery_error h
  | implies request l r existentials => exact Smt.implicationQuery_error h

end Question

namespace Solver

/-- Put a question to the solver. -/
def ask (s : Solver) : Question → Verdict × Solver
  | .checkUnsat request φ => oracle.checkUnsat φ request s
  | .implies request l r existentials => oracle.implies l r existentials request s

/-- A question takes a shortcut or goes by its query. -/
theorem ask_eq (s : Solver) (q : Question) :
    s.ask q =
      match q.shortcut? with
      | some b => (⟨.ok b, []⟩, s)
      | none => s.decide q.query q.request := by
  cases q with
  | checkUnsat request φ =>
    simp only [ask, oracle, checkUnsat, Question.shortcut?]
    split_ifs <;> rfl
  | implies request l r existentials =>
    simp only [ask, oracle, implies, Question.shortcut?]
    split_ifs <;> rfl

/-- What a reply answers; an error reads as no. -/
def Reply.answer : Reply → Except Refusal Bool
  | .answered unsat => .ok unsat
  | .failed _ => .ok false
  | .refused r => .error r

theorem answer_verdict (o : SmtOptions) (request : Request) (messages : List LogRecord)
    (reply : Reply) : (verdict o request messages reply).answer = reply.answer := by
  cases reply <;> rfl

theorem Reply.answer_eq_true_iff (reply : Reply) :
    reply.answer = .ok true ↔ reply = .answered true := by
  cases reply <;> simp [answer]

/-- What comes of runs is never a refusal. -/
theorem answer_replyOf (request : Request) (input : String) (last? : Option ProcessOutcome) :
    ∃ b, (replyOf request input last?).answer = .ok b := by
  match last? with
  | none => exact ⟨false, rfl⟩
  | some .timedOut => exact ⟨false, rfl⟩
  | some (.failed message) => exact ⟨false, rfl⟩
  | some (.output stdout) =>
    rw [replyOf]
    split
    · exact ⟨false, rfl⟩
    · unfold readAnswer
      split <;> exact ⟨_, rfl⟩

theorem send_of_no_limit {s : Solver} {request : Request}
    (h : s.options.hardTimeoutMs? request.timeoutMs = none) (input : String) :
    s.send request input = ⟨.refused .limitTooLong, [], s.outcomes⟩ := by
  rw [send, h]

theorem send_of_limit {s : Solver} {request : Request} {ms : Nat}
    (h : s.options.hardTimeoutMs? request.timeoutMs = some ms) (input : String)
    {runs : List ProcessOutcome}
    (hruns : runs = runsOf (s.afterwards (s.options.command request.timeoutMs) input) 4 s.outcomes) :
    (s.send request input).outcomes = s.outcomes.drop runs.length ∧
      (s.send request input).reply = replyOf request input runs.getLast? := by
  rw [send, h, hruns]
  exact attempts_eq s.options request input 0

/-- Queries may be shown on the way, and nothing else changes. -/
theorem runQuery_ok (s : Solver) (prelude : String) (request : Request) (query : String) :
    (s.runQuery (.ok prelude) request query).reply = (s.send request (prelude ++ query)).reply ∧
      (s.runQuery (.ok prelude) request query).outcomes =
        (s.send request (prelude ++ query)).outcomes := by
  rw [runQuery]
  split <;> exact ⟨rfl, rfl⟩

/-- A query that could be written: what its runs come to is answered, kept and counted. -/
theorem decide_ok (s : Solver) (query : String) (request : Request) :
    (s.decide (.ok query) request).1.answer =
        (s.runQuery s.prelude.read.1 request query).reply.answer ∧
      (s.decide (.ok query) request).2 = { s with
        prelude := s.prelude.read.2
        outcomes := (s.runQuery s.prelude.read.1 request query).outcomes
        profiler := count s.profiler true (s.runQuery s.prelude.read.1 request query).reply } :=
  ⟨answer_verdict .., rfl⟩

end Solver

/-! ## How a question can go -/

/-- A question to a solver, with its answer and the solver after it. -/
structure Exchange where
  question : Question
  before : Solver
  answer : Except Refusal Bool
  after : Solver

namespace Exchange

/-- What is sent to the process, if it comes to that: the question takes no shortcut, its query
    could be written, the prelude is available, and there is a hard limit. -/
def input? (x : Exchange) : Option String :=
  match x.question.shortcut?, x.question.query, x.before.prelude.read.1,
    x.before.options.hardTimeoutMs? x.question.request.timeoutMs with
  | none, .ok query, .ok prelude, some _ => some (prelude ++ query)
  | _, _, _, _ => none

/-- What a run for this input comes to when the script has ended. -/
def afterwards (x : Exchange) (input : String) : ProcessOutcome :=
  x.before.afterwards (x.before.options.command x.question.request.timeoutMs) input

/-- What the runs for this input come to, one after the other. -/
def outcome (x : Exchange) (input : String) (i : Nat) : ProcessOutcome :=
  x.before.outcomes.getD i (x.afterwards input)

/-- The runs that are started for the question, four at most. -/
def runs (x : Exchange) : List ProcessOutcome :=
  match x.input? with
  | none => []
  | some input => Solver.runsOf (x.afterwards input) 4 x.before.outcomes

/-- Nothing is run if there is nothing to send. -/
theorem runs_of_input?_none {x : Exchange} (h : x.input? = none) : x.runs = [] := by rw [runs, h]

theorem runs_of_input? (x : Exchange) {input : String} (h : x.input? = some input) :
    x.runs = Solver.runsOf (x.afterwards input) 4 x.before.outcomes := by
  rw [runs, h]

/-- How a question can go: it takes a shortcut, its query cannot be written, the prelude cannot be
    read, there is no hard limit, or the process is run. -/
inductive Course (x : Exchange) : Prop
  | shortcut {b : Bool} (hshortcut : x.question.shortcut? = some b) (hanswer : x.answer = .ok b)
      (hafter : x.after = x.before)
  | unwritten {what : String} (hshortcut : x.question.shortcut? = none)
      (hquery : x.question.query = .error (.untranslatable what)) (hanswer : x.answer = .ok false)
      (hafter : x.after = { x.before with
        profiler := Solver.count x.before.profiler false (.failed (.untranslatable what)) })
  | unprepared {query message : String} (hshortcut : x.question.shortcut? = none)
      (hquery : x.question.query = .ok query) (hprelude : x.before.prelude.read.1 = .error message)
      (hanswer : x.answer = .ok false)
      (hafter : x.after = { x.before with
        prelude := x.before.prelude.read.2
        profiler := Solver.count x.before.profiler true (.failed (.prelude message)) })
  | unlimited {query prelude : String} (hshortcut : x.question.shortcut? = none)
      (hquery : x.question.query = .ok query) (hprelude : x.before.prelude.read.1 = .ok prelude)
      (hlimit : x.before.options.hardTimeoutMs? x.question.request.timeoutMs = none)
      (hanswer : x.answer = .error .limitTooLong)
      (hafter : x.after = { x.before with
        prelude := x.before.prelude.read.2
        profiler := Solver.count x.before.profiler true (.refused .limitTooLong) })
  | run {query input : String} (hshortcut : x.question.shortcut? = none)
      (hquery : x.question.query = .ok query) (hinput : x.input? = some input)
      (hanswer : x.answer = (Solver.replyOf x.question.request input x.runs.getLast?).answer)
      (hafter : x.after = { x.before with
        prelude := x.before.prelude.read.2
        outcomes := x.before.outcomes.drop x.runs.length
        profiler := Solver.count x.before.profiler true
          (Solver.replyOf x.question.request input x.runs.getLast?) })

end Exchange

/-- Put a question to the solver, and note what comes of it. -/
def Solver.exchange (s : Solver) (q : Question) : Exchange :=
  ⟨q, s, (s.ask q).1.answer, (s.ask q).2⟩

theorem Solver.course_exchange (s : Solver) (q : Question) : (s.exchange q).Course := by
  have hask := s.ask_eq q
  cases hshortcut : q.shortcut? with
  | some b =>
    rw [hshortcut] at hask
    exact .shortcut hshortcut (by rw [exchange, hask]) (by rw [exchange, hask])
  | none =>
    rw [hshortcut] at hask
    replace hask : s.ask q = s.decide q.query q.request := hask
    cases hquery : q.query with
    | error e =>
      obtain ⟨what, rfl⟩ := Question.query_eq_error hquery
      rw [hquery] at hask
      exact .unwritten hshortcut hquery (by rw [exchange, hask]; rfl) (by rw [exchange, hask]; rfl)
    | ok query =>
      rw [hquery] at hask
      obtain ⟨hanswer, hafter⟩ := s.decide_ok query q.request
      rw [← hask] at hanswer hafter
      cases hprelude : s.prelude.read.1 with
      | error message =>
        rw [hprelude] at hanswer hafter
        exact .unprepared hshortcut hquery hprelude hanswer hafter
      | ok prelude =>
        rw [hprelude, (s.runQuery_ok prelude q.request query).1] at hanswer
        rw [hprelude, (s.runQuery_ok prelude q.request query).1,
          (s.runQuery_ok prelude q.request query).2] at hafter
        cases hlimit : s.options.hardTimeoutMs? q.request.timeoutMs with
        | none =>
          rw [send_of_no_limit hlimit] at hanswer hafter
          exact .unlimited hshortcut hquery hprelude hlimit hanswer hafter
        | some ms =>
          have hinput : (s.exchange q).input? = some (prelude ++ query) := by
            simp only [Exchange.input?, exchange, hshortcut, hquery, hprelude, hlimit]
          obtain ⟨houtcomes, hreply⟩ :=
            send_of_limit hlimit (prelude ++ query) ((s.exchange q).runs_of_input? hinput)
          rw [hreply] at hanswer
          rw [hreply, houtcomes] at hafter
          exact .run hshortcut hquery hinput hanswer hafter

namespace Exchange

/-! ## Answers -/

/-- Something is sent just if there is a query, a prelude and a hard limit. -/
theorem input?_eq_some_iff {x : Exchange} (hshortcut : x.question.shortcut? = none)
    (input : String) :
    x.input? = some input ↔
      ∃ query prelude ms, x.question.query = .ok query ∧ x.before.prelude.read.1 = .ok prelude ∧
        x.before.options.hardTimeoutMs? x.question.request.timeoutMs = some ms ∧
        input = prelude ++ query := by
  unfold input?
  constructor
  · intro h
    split at h
    · rename_i hquery hprelude hlimit
      exact ⟨_, _, _, hquery, hprelude, hlimit, (Option.some.inj h).symm⟩
    · cases h
  · rintro ⟨query, prelude, ms, hquery, hprelude, hlimit, rfl⟩
    rw [hshortcut, hquery, hprelude, hlimit]

theorem getLast?_runs_iff {x : Exchange} {input : String} (h : x.input? = some input)
    {last : ProcessOutcome} (hlast : last.isBlank = false) :
    x.runs.getLast? = some last ↔
      ∃ k < 4, (∀ i < k, (x.outcome input i).isBlank = true) ∧ x.outcome input k = last := by
  rw [x.runs_of_input? h]
  exact Solver.getLast?_runsOf_iff hlast

/-- Something is sent, and of at most four runs for it the first one that is not blank has the
    answer `unsat`. -/
def Proves (x : Exchange) : Prop :=
  ∃ query prelude ms, x.question.query = .ok query ∧ x.before.prelude.read.1 = .ok prelude ∧
    x.before.options.hardTimeoutMs? x.question.request.timeoutMs = some ms ∧
    ∃ k < 4, (∀ i < k, (x.outcome (prelude ++ query) i).isBlank = true) ∧
      (x.outcome (prelude ++ query) k).answer? = some "unsat"

theorem proves_iff {x : Exchange} (hshortcut : x.question.shortcut? = none) :
    x.Proves ↔ ∃ input, x.input? = some input ∧
      ∃ last, x.runs.getLast? = some last ∧ last.answer? = some "unsat" := by
  constructor
  · rintro ⟨query, prelude, ms, hquery, hprelude, hlimit, k, hk, hbefore, hanswer⟩
    have hinput := (input?_eq_some_iff hshortcut _).mpr
      ⟨query, prelude, ms, hquery, hprelude, hlimit, rfl⟩
    have hlast := ProcessOutcome.not_isBlank_of_answer? hanswer
    exact ⟨_, hinput, _, (getLast?_runs_iff hinput hlast).mpr ⟨k, hk, hbefore, rfl⟩, hanswer⟩
  · rintro ⟨input, hinput, last, hruns, hanswer⟩
    obtain ⟨query, prelude, ms, hquery, hprelude, hlimit, rfl⟩ :=
      (input?_eq_some_iff hshortcut input).mp hinput
    obtain ⟨k, hk, hbefore, rfl⟩ :=
      (getLast?_runs_iff hinput (ProcessOutcome.not_isBlank_of_answer? hanswer)).mp hruns
    exact ⟨query, prelude, ms, hquery, hprelude, hlimit, k, hk, hbefore, hanswer⟩

/-- What a question comes to, as its runs have it. -/
structure Exact (x : Exchange) : Prop where
  /-- A shortcut answers at once and leaves the solver as it is. -/
  shortcut : ∀ b, x.question.shortcut? = some b → x.answer = .ok b ∧ x.after = x.before
  /-- Only for want of a hard limit is there no answer. -/
  refused : ∀ r, x.answer = .error r →
    x.before.options.hardTimeoutMs? x.question.request.timeoutMs = none
  proved_iff : x.question.shortcut? = none → (x.answer = .ok true ↔ x.Proves)
  /-- The runs that are started take their outcomes from the script, and no others are taken. -/
  taken : x.after.outcomes = x.before.outcomes.drop x.runs.length
  nothing_sent : x.input? = none → x.runs = []
  at_most_four : x.runs.length ≤ 4
  /-- No run is started after one that is not blank. -/
  earlier_blank : ∀ o ∈ x.runs.dropLast, o.isBlank = true

theorem exact_of_nothing_sent {x : Exchange} (hinput : x.input? = none)
    (htaken : x.after.outcomes = x.before.outcomes)
    (hshortcut : ∀ b, x.question.shortcut? = some b → x.answer = .ok b ∧ x.after = x.before)
    (hrefused : ∀ r, x.answer = .error r →
      x.before.options.hardTimeoutMs? x.question.request.timeoutMs = none)
    (hanswer : x.question.shortcut? = none → x.answer ≠ .ok true) : x.Exact where
  shortcut := hshortcut
  refused := hrefused
  proved_iff hnone := by
    rw [proves_iff hnone]
    exact iff_of_false (hanswer hnone) fun ⟨_, hsome, _⟩ => nomatch hinput.symm.trans hsome
  nothing_sent := runs_of_input?_none
  taken := by rw [htaken, runs_of_input?_none hinput]; rfl
  at_most_four := by rw [runs_of_input?_none hinput]; exact Nat.zero_le 4
  earlier_blank := by rw [runs_of_input?_none hinput]; nofun

theorem Course.exact {x : Exchange} (h : x.Course) : x.Exact := by
  have noShortcut (hnone : x.question.shortcut? = none) (b : Bool)
      (hsome : x.question.shortcut? = some b) : x.answer = .ok b ∧ x.after = x.before :=
    nomatch hnone.symm.trans hsome
  cases h with
  | shortcut hshortcut hanswer hafter =>
    refine exact_of_nothing_sent (by simp [input?, hshortcut]) (by rw [hafter]) ?_ ?_ ?_
    · rintro b hsome
      obtain rfl : _ = b := Option.some.inj (hshortcut.symm.trans hsome)
      exact ⟨hanswer, hafter⟩
    · exact fun r hr => nomatch hanswer.symm.trans hr
    · exact fun hnone => nomatch hshortcut.symm.trans hnone
  | unwritten hshortcut hquery hanswer hafter =>
    refine exact_of_nothing_sent (by simp [input?, hshortcut, hquery]) (by rw [hafter])
      (noShortcut hshortcut) ?_ ?_
    · exact fun r hr => nomatch hanswer.symm.trans hr
    · exact fun _ htrue => nomatch hanswer.symm.trans htrue
  | unprepared hshortcut hquery hprelude hanswer hafter =>
    refine exact_of_nothing_sent (by simp [input?, hshortcut, hquery, hprelude]) (by rw [hafter])
      (noShortcut hshortcut) ?_ ?_
    · exact fun r hr => nomatch hanswer.symm.trans hr
    · exact fun _ htrue => nomatch hanswer.symm.trans htrue
  | unlimited hshortcut hquery hprelude hlimit hanswer hafter =>
    refine exact_of_nothing_sent (by simp [input?, hshortcut, hquery, hprelude, hlimit])
      (by rw [hafter]) (noShortcut hshortcut) (fun _ _ => hlimit) ?_
    exact fun _ htrue => nomatch hanswer.symm.trans htrue
  | @run query input hshortcut hquery hinput hanswer hafter =>
    have hruns := x.runs_of_input? hinput
    exact
      { shortcut := noShortcut hshortcut
        refused := fun r hr => by
          obtain ⟨b, hb⟩ := Solver.answer_replyOf x.question.request input x.runs.getLast?
          exact nomatch hr.symm.trans (hanswer.trans hb)
        proved_iff := fun _ => by
          rw [hanswer, Solver.Reply.answer_eq_true_iff, Solver.replyOf_eq_answered_iff,
            proves_iff hshortcut]
          exact ⟨fun h => ⟨input, hinput, h⟩, fun ⟨_, _, h⟩ => h⟩
        nothing_sent := runs_of_input?_none
        taken := by rw [hafter]
        at_most_four := hruns ▸ Solver.length_runsOf_le
        earlier_blank := hruns ▸ fun o => Solver.isBlank_of_mem_dropLast }

/-! ## Counters -/

def isRequest (x : Exchange) : Bool := x.question.shortcut?.isNone

def isUntranslatable (x : Exchange) : Bool :=
  x.isRequest &&
    match x.question.query with
    | .error (.untranslatable _) => true
    | _ => false

def isProved (x : Exchange) : Bool :=
  x.isRequest &&
    match x.answer with
    | .ok proved => proved
    | .error _ => false

/-- The last run was stopped, or its answer is that there was no time. -/
def isTimeout (x : Exchange) : Bool := x.runs.getLast?.any ProcessOutcome.isTimeout

end Exchange

/-- The counters after these questions. -/
def Profiler.adding (p : Profiler) (log : List Exchange) : Profiler where
  requests := p.requests + log.countP Exchange.isRequest
  queryBuildFailures := p.queryBuildFailures + log.countP Exchange.isUntranslatable
  timeouts := p.timeouts + log.countP Exchange.isTimeout
  unsatAnswers := p.unsatAnswers + log.countP Exchange.isProved

theorem Profiler.adding_append (p : Profiler) (log later : List Exchange) :
    p.adding (log ++ later) = (p.adding log).adding later := by
  simp only [adding, List.countP_append, Nat.add_assoc]

theorem Profiler.adding_singleton (p : Profiler) (x : Exchange) :
    p.adding [x] =
      { requests := p.requests + if x.isRequest then 1 else 0
        queryBuildFailures := p.queryBuildFailures + if x.isUntranslatable then 1 else 0
        timeouts := p.timeouts + if x.isTimeout then 1 else 0
        unsatAnswers := p.unsatAnswers + if x.isProved then 1 else 0 } := by
  simp only [adding, List.countP_cons, List.countP_nil, Nat.zero_add]

theorem Solver.count_eq (p : Profiler) (built : Bool) (reply : Reply) :
    count p built reply =
      { requests := p.requests + 1
        queryBuildFailures := p.queryBuildFailures + if built then 0 else 1
        timeouts := p.timeouts + if reply.isTimeout then 1 else 0
        unsatAnswers := p.unsatAnswers + if reply.answer = .ok true then 1 else 0 } := by
  have hbuilt : (if built then p.queryBuildFailures else p.queryBuildFailures + 1) =
      p.queryBuildFailures + if built then 0 else 1 := by split <;> rfl
  unfold count
  rw [hbuilt]
  match reply with
  | .answered true => simp [Reply.isTimeout, Reply.answer]
  | .answered false => simp [Reply.isTimeout, Reply.answer]
  | .refused r => simp [Reply.isTimeout, Reply.answer]
  | .failed e => cases e <;> simp [Reply.isTimeout, Reply.answer]

namespace Exchange

theorem isTimeout_of_input?_none {x : Exchange} (h : x.input? = none) : x.isTimeout = false := by
  rw [isTimeout, runs_of_input?_none h]
  rfl

theorem profiler_eq_of_count {x : Exchange} (built : Bool) (reply : Solver.Reply)
    (hshortcut : x.question.shortcut? = none)
    (hprofiler : x.after.profiler = Solver.count x.before.profiler built reply)
    (hbuilt : x.isUntranslatable = !built) (htimeout : x.isTimeout = reply.isTimeout)
    (hanswer : x.answer = reply.answer) :
    x.after.profiler = x.before.profiler.adding [x] := by
  have hrequest : x.isRequest = true := by rw [isRequest, hshortcut]; rfl
  have hproved : x.isProved = true ↔ reply.answer = .ok true := by
    rw [isProved, hrequest, hanswer, Bool.true_and]
    cases reply.answer <;> simp
  rw [hprofiler, Solver.count_eq, Profiler.adding_singleton, hrequest, hbuilt, htimeout]
  congr 1
  · cases built <;> rfl
  · simp only [hproved]

/-- A question is counted as what it came to. -/
theorem Course.profiler_eq {x : Exchange} (h : x.Course) :
    x.after.profiler = x.before.profiler.adding [x] := by
  cases h with
  | shortcut hshortcut hanswer hafter =>
    have htimeout := isTimeout_of_input?_none (x := x) (by simp [input?, hshortcut])
    rw [hafter, Profiler.adding_singleton]
    simp [isRequest, isUntranslatable, isProved, hshortcut, htimeout]
  | @unwritten what hshortcut hquery hanswer hafter =>
    refine profiler_eq_of_count false (.failed (.untranslatable what)) hshortcut (by rw [hafter])
      ?_ ?_ hanswer
    · simp [isUntranslatable, isRequest, hshortcut, hquery]
    · exact isTimeout_of_input?_none (by simp [input?, hshortcut, hquery])
  | @unprepared query message hshortcut hquery hprelude hanswer hafter =>
    refine profiler_eq_of_count true (.failed (.prelude message)) hshortcut (by rw [hafter])
      ?_ ?_ hanswer
    · simp [isUntranslatable, hquery]
    · exact isTimeout_of_input?_none (by simp [input?, hshortcut, hquery, hprelude])
  | unlimited hshortcut hquery hprelude hlimit hanswer hafter =>
    refine profiler_eq_of_count true (.refused .limitTooLong) hshortcut (by rw [hafter])
      ?_ ?_ hanswer
    · simp [isUntranslatable, hquery]
    · exact isTimeout_of_input?_none (by simp [input?, hshortcut, hquery, hprelude, hlimit])
  | @run query input hshortcut hquery hinput hanswer hafter =>
    refine profiler_eq_of_count true (Solver.replyOf x.question.request input x.runs.getLast?)
      hshortcut (by rw [hafter]) ?_ ?_ hanswer
    · simp [isUntranslatable, hquery]
    · exact (Solver.isTimeout_replyOf x.question.request input x.runs.getLast?).symm

end Exchange

/-! ## Any sequence of questions -/

namespace Solver

/-- Put questions one after the other, and note what comes of each of them. -/
def exchanges : List Question → Solver → List Exchange
  | [], _ => []
  | q :: qs, s => s.exchange q :: exchanges qs (s.exchange q).after

/-- The solver after these questions. -/
def askAll (qs : List Question) (s : Solver) : Solver := qs.foldl (fun s q => (s.ask q).2) s

theorem profiler_askAll (qs : List Question) (s : Solver) :
    (s.askAll qs).profiler = s.profiler.adding (s.exchanges qs) := by
  induction qs generalizing s with
  | nil => rfl
  | cons q qs ih =>
    have hstep := (s.course_exchange q).profiler_eq
    calc (s.askAll (q :: qs)).profiler
        = ((s.exchange q).after.askAll qs).profiler := rfl
      _ = (s.exchange q).after.profiler.adding ((s.exchange q).after.exchanges qs) := ih _
      _ = s.profiler.adding ([s.exchange q] ++ (s.exchange q).after.exchanges qs) := by
          rw [hstep, Profiler.adding_append]
          rfl

theorem course_of_mem_exchanges {qs : List Question} {s : Solver} {x : Exchange}
    (hx : x ∈ s.exchanges qs) : x.Course := by
  induction qs generalizing s with
  | nil => exact absurd hx List.not_mem_nil
  | cons q qs ih =>
    rcases List.mem_cons.mp hx with rfl | hx
    · exact s.course_exchange q
    · exact ih hx

theorem map_question_exchanges (qs : List Question) (s : Solver) :
    (s.exchanges qs).map Exchange.question = qs := by
  induction qs generalizing s with
  | nil => rfl
  | cons q qs ih => exact congrArg (q :: ·) (ih _)

/-- **The solver says yes only on a proof, and its counters are exact.** Of any sequence of
    questions, for any script of what the runs come to, each one that takes no shortcut is answered
    with yes just if its query could be written, the prelude is available, there is a hard limit,
    and of at most four runs the first one that does not print only white space has `unsat` as its
    first line; a run that is stopped or fails is not blank and has no answer. No run is started
    after one that is not blank, and none without a query and a prelude. Afterwards the counters have
    grown by the number of questions without a shortcut, of those that could not be written, of those
    whose last run ended for lack of time, and of those that were proved. -/
theorem questions_exact (qs : List Question) (s : Solver) :
    (s.exchanges qs).map Exchange.question = qs ∧ (∀ x ∈ s.exchanges qs, x.Exact) ∧
      (s.askAll qs).profiler = s.profiler.adding (s.exchanges qs) :=
  ⟨map_question_exchanges qs s, fun _ hx => (course_of_mem_exchanges hx).exact,
    profiler_askAll qs s⟩

/-! ### The prelude -/

/-- A question with a query reads the prelude, and no other does. -/
theorem prelude_of_course {x : Exchange} (h : x.Course) :
    x.after.prelude =
      if x.question.shortcut?.isNone && x.question.query.toOption.isSome then
        x.before.prelude.read.2
      else x.before.prelude := by
  cases h with
  | shortcut hshortcut hanswer hafter => simp [hafter, hshortcut]
  | unwritten hshortcut hquery hanswer hafter => simp [hafter, hquery, Except.toOption]
  | unprepared hshortcut hquery hprelude hanswer hafter =>
    simp [hafter, hshortcut, hquery, Except.toOption]
  | unlimited hshortcut hquery hprelude hlimit hanswer hafter =>
    simp [hafter, hshortcut, hquery, Except.toOption]
  | run hshortcut hquery hinput hanswer hafter =>
    simp [hafter, hshortcut, hquery, Except.toOption]

theorem read_of_text? {p : Prelude} {text : String} (h : p.text? = some text) :
    p.read = (.ok text, p) := by
  rw [Prelude.read, h]

theorem text?_read {p : Prelude} {text : String} (h : p.read.1 = .ok text) :
    p.read.2.text? = some text := by
  cases htext : p.text? with
  | some text' =>
    rw [read_of_text? htext] at h ⊢
    rw [htext, Except.ok.inj h]
  | none =>
    rw [Prelude.read, htext] at h ⊢
    dsimp only at h ⊢
    rw [h]
    rfl

/-- A prelude that was read is not read again. -/
theorem prelude_exchanges {qs : List Question} {s : Solver} {text : String}
    (h : s.prelude.text? = some text) {x : Exchange} (hx : x ∈ s.exchanges qs) :
    x.before.prelude.read.1 = .ok text := by
  induction qs generalizing s with
  | nil => exact absurd hx List.not_mem_nil
  | cons q qs ih =>
    rcases List.mem_cons.mp hx with rfl | hx
    · rw [exchange, read_of_text? h]
    · have hafter := prelude_of_course (s.course_exchange q)
      rw [exchange, read_of_text? h, ite_self] at hafter
      exact ih (hafter ▸ h) hx

/-- The prelude that one query was sent with is that of all later ones. -/
theorem prelude_kept {q : Question} {query text : String} {s : Solver}
    (hshortcut : q.shortcut? = none) (hquery : q.query = .ok query)
    (hread : s.prelude.read.1 = .ok text) {qs : List Question} {x : Exchange}
    (hx : x ∈ (s.exchange q).after.exchanges qs) : x.before.prelude.read.1 = .ok text := by
  have hafter := prelude_of_course (s.course_exchange q)
  rw [exchange, hshortcut, hquery] at hafter
  exact prelude_exchanges (hafter ▸ text?_read hread) hx

end Solver

end Entail
