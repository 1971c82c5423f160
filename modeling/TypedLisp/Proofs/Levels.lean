import TypedLisp.Proofs.Incremental

namespace TypedLisp

/-- What can be asked of a session. -/
inductive Request where
  | check (d : Datum)
  | checkProgram (ds : List Datum)
  | checkSource (source : String)
  | typeNamed (name : String)
  | globalNamed (name : String)
  | options

inductive Answer where
  | typed (outcome : Except SourceError Ty)
  | found (type : Option Ty)
  | options (options : Options)

namespace Session

/-- The answer to a request and the session afterwards. -/
def answer (σ : Session) : Request → Answer × Session
  | .check d =>
      let (outcome, σ) := σ.run (check d)
      (.typed (outcome.mapError .halted), σ)
  | .checkProgram ds =>
      let (outcome, σ) := σ.run (checkProgram ds)
      (.typed (outcome.mapError .halted), σ)
  | .checkSource source =>
      let (outcome, σ) := σ.checkSource source
      (.typed outcome, σ)
  | .typeNamed name => (.found (σ.type? name), σ)
  | .globalNamed name => (.found (σ.global? name), σ)
  | .options => (.options σ.context.options, σ)

def answerAll (σ : Session) : List Request → List Answer × Session
  | [] => ([], σ)
  | r :: requests =>
      let (first, σ) := σ.answer r
      let (others, σ) := σ.answerAll requests
      (first :: others, σ)

end Session

namespace CheckM

/-- Check, and go on if the check is stopped. -/
def attempt (m : CheckM Ty) : CheckM Answer :=
  tryCatch (do return .typed (.ok (← m))) fun halt => return .typed (.error (.halted halt))

theorem run_attempt (σ : Session) (m : CheckM Ty) :
    σ.run (attempt m) = (.ok (.typed ((σ.run m).1.mapError .halted)), (σ.run m).2) := by
  rw [attempt, Session.run_tryCatch, Session.run_bind]
  obtain ⟨outcome, σ'⟩ := σ.run m
  cases outcome <;> rfl

end CheckM

open CheckM

/-- A request as a check that is never stopped. -/
def Request.perform : Request → CheckM Answer
  | check d => attempt (Session.check d)
  | checkProgram ds => attempt (Session.checkProgram ds)
  | checkSource source =>
      match Datum.read source with
      | .error e => return .typed (.error (.unreadable e))
      | .ok ds => attempt (Session.checkProgram ds)
  | typeNamed name => do return .found ((← context).registered? name)
  | globalNamed name => do return .found ((← context).lookup? Arena.global name)
  | options => do return .options (← context).options

def Request.performAll : List Request → CheckM (List Answer)
  | [] => return []
  | r :: requests => do
      let first ← r.perform
      let others ← performAll requests
      return first :: others

theorem Request.run_perform (σ : Session) (r : Request) :
    σ.run r.perform = (.ok (σ.answer r).1, (σ.answer r).2) := by
  cases r with
  | check d => exact run_attempt σ _
  | checkProgram ds => exact run_attempt σ _
  | checkSource source =>
      rw [perform, Session.answer, Session.checkSource]
      cases Datum.read source with
      | error e => rfl
      | ok ds => exact run_attempt σ _
  | typeNamed | globalNamed | options => rfl

theorem Request.run_performAll (σ : Session) (requests : List Request) :
    σ.run (performAll requests) = (.ok (σ.answerAll requests).1, (σ.answerAll requests).2) := by
  induction requests generalizing σ with
  | nil => rfl
  | cons r requests ih =>
      rw [performAll, Session.run_bind_of_ok _ (r.run_perform σ), Session.run_bind_of_ok _ (ih _)]
      rfl

namespace IgnoresLog

theorem attempt {m : CheckM Ty} (hm : IgnoresLog m) : IgnoresLog (attempt m) :=
  (hm.bind fun _ => pure _).tryCatch fun _ => pure _

theorem check (d : Datum) : IgnoresLog (Session.check d) :=
  (checkBody (bodyWithin _) d _).bind fun _ => (emit _).bind fun _ => pure _

theorem checkProgram (ds : List Datum) : IgnoresLog (Session.checkProgram ds) :=
  (emit _).bind fun _ => Session.ignoresLog_checkTop ds

theorem perform (r : Request) : IgnoresLog r.perform := by
  cases r with
  | check d => exact (check d).attempt
  | checkProgram ds => exact (checkProgram ds).attempt
  | checkSource source =>
      rw [Request.perform]
      split
      · exact pure _
      · exact (checkProgram _).attempt
  | typeNamed | globalNamed | options => exact context.bind fun _ => pure _

theorem performAll (requests : List Request) : IgnoresLog (Request.performAll requests) := by
  induction requests with
  | nil => exact pure []
  | cons r requests ih => exact (perform r).bind fun _ => ih.bind fun _ => pure _

end IgnoresLog

def records (events : Array Event) : List Record :=
  events.toList.map Event.toRecord

/-- Through a logger, requests are given these answers, leave this context and have these events
written, whatever was written before. -/
def Logger.Serves (l : Logger) (requests : List Request) (c : Context) (answers : List Answer)
    (after : Context) (written : Array Event) : Prop :=
  (∃ served, Guarded l (Request.performAll requests) served) ∧
    ∀ served, Guarded l (Request.performAll requests) served → ∀ events,
      Session.run ⟨c, events⟩ served = (.ok answers, ⟨after, events ++ written⟩)

theorem Logger.exists_serves (requests : List Request) (c : Context) :
    ∃ answers after reported,
      (∀ events, Session.answerAll ⟨c, events⟩ requests =
        (answers, ⟨after, events ++ reported⟩)) ∧
      ∀ l : Logger, l.Serves requests c answers after (reported.filter l.lets) := by
  have hignores := IgnoresLog.performAll requests
  obtain ⟨_, hguarded⟩ := hignores.exists_guarded {}
  obtain ⟨outcome, after, reported, hends⟩ := hguarded.reportsThrough c
  obtain ⟨answers, rfl⟩ : ∃ answers, outcome = .ok answers :=
    ⟨_, congrArg Prod.fst ((hends #[]).1.symm.trans (Request.run_performAll ⟨c, #[]⟩ requests))⟩
  refine ⟨answers, after, reported, fun events => ?_, fun l => ⟨hignores.exists_guarded l, ?_⟩⟩
  · have hrun := (Request.run_performAll ⟨c, events⟩ requests).symm.trans (hends events).1
    obtain ⟨hok, hafter⟩ := Prod.mk.inj hrun
    exact Prod.ext (Except.ok.inj hok) hafter
  · intro served hserved events
    obtain ⟨outcome', after', reported', hends'⟩ := hserved.reportsThrough c
    -- The unguarded run is one and the same, so the two loggers pass on the same events.
    obtain ⟨rfl, hsession⟩ := Prod.mk.inj ((hends #[]).1.symm.trans (hends' #[]).1)
    obtain ⟨rfl, hevents⟩ := Session.mk.inj hsession
    obtain rfl : reported = reported' := by simpa using hevents
    exact (hends' events).2

theorem Logger.lets_of_lets {l l' : Logger} (hlevel : l.level.rank ≤ l'.level.rank) {e : Event}
    (h : l.lets e = true) : l'.lets e = true := by
  rw [lets, enabled, decide_eq_true_eq] at h ⊢
  exact Nat.le_trans h hlevel

theorem Logger.records_filter_lets {l l' : Logger} (hlevel : l.level.rank ≤ l'.level.rank)
    (reported : Array Event) :
    records (reported.filter l.lets) =
      (records (reported.filter l'.lets)).filter fun r => r.level.rank ≤ l.level.rank := by
  have hboth (e : Event) : (l.lets e && l'.lets e) = l.lets e := by
    cases hlets : l.lets e with
    | false => rfl
    | true => rw [lets_of_lets hlevel hlets, Bool.and_self]
  rw [records, records, List.filter_map, Array.toList_filter, Array.toList_filter,
    List.filter_filter]
  exact congrArg (List.map Event.toRecord) (List.filter_congr fun e _ => (hboth e).symm)

theorem Logger.write_records (l : Logger) (reported : Array Event) :
    l.write (records reported) = String.join ((records (reported.filter l.lets)).map l.line) := by
  rw [write, passed, records, records, List.filter_map, Array.toList_filter]
  rfl

/-- Levels only filter. Through two loggers of which one has the lower level, and which colour alike,
requests are given the same answers and leave the same context: those of a session without a logger.
The records written through the lower one are the records written through the higher one that its
level enables, and the lines it writes are theirs. -/
theorem Logger.levels_only_filter {l l' : Logger} (hlevel : l.level.rank ≤ l'.level.rank)
    (hcolor : l.color = l'.color) (requests : List Request) (c : Context) :
    ∃ answers after reported few many,
      (∀ events, Session.answerAll ⟨c, events⟩ requests =
        (answers, ⟨after, events ++ reported⟩)) ∧
      l.Serves requests c answers after few ∧ l'.Serves requests c answers after many ∧
      records few = (records many).filter (fun r => r.level.rank ≤ l.level.rank) ∧
      l.write (records reported) = String.join ((records few).map l'.line) ∧
      l'.write (records reported) = String.join ((records many).map l'.line) := by
  obtain ⟨answers, after, reported, hanswers, hserves⟩ := exists_serves requests c
  have hline : l.line = l'.line := by
    funext r
    rw [line, line, hcolor]
  refine ⟨answers, after, reported, reported.filter l.lets, reported.filter l'.lets, hanswers,
    hserves l, hserves l', records_filter_lets hlevel reported, ?_, l'.write_records reported⟩
  rw [l.write_records, hline]

/-- A program is checked, and a name that is not bound. -/
def twoRequests : List Request :=
  [.checkProgram [.boolean true], .check (.symbol "missing")]

/-- The lower logger has one line of the three, the higher one has all. The second request is
refused under both. -/
theorem Logger.levels_only_filter_of_requests :
    Level.info.rank ≤ Level.trace.rank ∧
      ∃ answers after reported few many,
        Session.answerAll ⟨Context.new {}, #[]⟩ twoRequests = (answers, ⟨after, reported⟩) ∧
        Logger.Serves ⟨.info, false⟩ twoRequests (Context.new {}) answers after few ∧
        Logger.Serves ⟨.trace, false⟩ twoRequests (Context.new {}) answers after many ∧
        records few = (records many).filter (fun r => r.level.rank ≤ Level.info.rank) ∧
        Logger.write ⟨.info, false⟩ (records reported) =
          "[INFO] tyl_typecheck::checker: checking 1 top-level expressions\n" ∧
        reported.size = 3 := by
  have hlevel : Level.info.rank ≤ Level.trace.rank := by decide
  obtain ⟨answers, after, reported, few, many, hanswers, hlow, hhigh, hrecords, -, -⟩ :=
    @levels_only_filter ⟨.info, false⟩ ⟨.trace, false⟩ hlevel rfl twoRequests (Context.new {})
  have hreported : (Session.answerAll ⟨Context.new {}, #[]⟩ twoRequests).2.events = reported := by
    rw [hanswers #[], Array.empty_append]
  refine ⟨hlevel, answers, after, reported, few, many, ?_, hlow, hhigh, hrecords, ?_, ?_⟩
  · rw [hanswers #[], Array.empty_append]
  · rw [← hreported]
    decide +kernel
  · rw [← hreported]
    decide +kernel

end TypedLisp
