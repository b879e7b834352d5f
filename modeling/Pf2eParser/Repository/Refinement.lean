import Mathlib.Data.Multiset.MapFold
import Pf2eParser.Repository.Agreement
import Pf2eParser.Repository.Alone

/-!
# The repository as a pair of maps

What the repository is for, without its tables: a map from document versions to digests, and a map
from logical parses to their candidates (`Store`).  `Store.parseOnce` is a call on this state.  The
two tables refine it: along every history of calls, each of them executed alone and possibly rolled
back by the failure of a statement, the answers are those of the abstract state (`Behaves`), and the
tables hold the two maps and nothing else (`Represents`).
-/

namespace Pf2eParser

open Text ReadCommitted

/-! ## The abstract state -/

/-- The document version of a logical parse. -/
def RunKey.version (key : RunKey) : Str × Int64 := (key.documentId, key.documentVersion)

/-- The digest of every document version, and the candidates of every logical parse. -/
structure Store where
  digest : Str × Int64 → Option (List UInt8)
  candidates : RunKey → Option (Multiset Candidate)

namespace Store

/-- Nothing has been parsed. -/
def empty : Store := ⟨fun _ => none, fun _ => none⟩

/-- Record the result of a new parse. -/
def record (store : Store) (key : RunKey) (candidates : Multiset Candidate) : Store where
  digest := Function.update store.digest key.version (some key.contentDigest)
  candidates := Function.update store.candidates key (some candidates)

@[simp] theorem digest_record_self (store : Store) (key : RunKey)
    (candidates : Multiset Candidate) :
    (store.record key candidates).digest key.version = some key.contentDigest :=
  Function.update_self _ _ _

@[simp] theorem digest_record_of_ne (store : Store) {key : RunKey} (candidates : Multiset Candidate)
    {version : Str × Int64} (h : version ≠ key.version) :
    (store.record key candidates).digest version = store.digest version :=
  Function.update_of_ne h _ _

@[simp] theorem candidates_record_self (store : Store) (key : RunKey)
    (candidates : Multiset Candidate) :
    (store.record key candidates).candidates key = some candidates := Function.update_self _ _ _

@[simp] theorem candidates_record_of_ne (store : Store) {key key' : RunKey}
    (candidates : Multiset Candidate) (h : key' ≠ key) :
    (store.record key candidates).candidates key' = store.candidates key' :=
  Function.update_of_ne h _ _

/-- Run a logical parse, or recognize that it has run: the candidates, whether they come from an
earlier run, and the new state.  An error comes with no new state. -/
def parseOnce (E : Externals) (store : Store) (call : Call) :
    Except CandidateError ((Multiset Candidate × Bool) × Store) :=
  if (trim call.source.sourceText).isEmpty then .error .emptySourceText
  else if (store.digest (call.key E).version).any
      (fun digest => digest ≠ (call.key E).contentDigest) then
    .error .sourceDigestMismatch
  else
    match store.candidates (call.key E) with
    | some candidates => .ok ((candidates, true), store)
    | none =>
      .ok ((call.candidates E, false), store.record (call.key E) (call.candidates E))

end Store

/-! ## Histories -/

/-- One call of a history: its statements, and its answer. -/
structure Entry where
  call : Call
  moves : List (Move Row)
  answer : ParseResult

/-- Calls that are executed one after the other, from empty tables. -/
inductive History (E : Externals) : List Entry → List Row → Prop
  | nil : History E [] []
  | snoc {entries : List Entry} {tables rows : List Row} {entry : Entry}
      (h : History E entries tables)
      (hrun : runAlone schema tables [] (parseOnce E entry.call) entry.moves =
        some (rows, entry.answer)) : History E (entries ++ [entry]) (tables ++ rows)

/-- The calls answer as the abstract state does, unless a statement fails. -/
inductive Behaves (E : Externals) : List Entry → Store → Prop
  | nil : Behaves E [] .empty
  /-- The call succeeds. -/
  | ok {entries : List Entry} {store store' : Store} {call : Call} {moves : List (Move Row)}
      {outcome : ParseOutcome} (h : Behaves E entries store) (hok : Move.fail ∉ moves)
      (hanswer : store.parseOnce E call =
        .ok ((outcome.candidates, outcome.wasAlreadyProcessed), store'))
      (hsource : outcome.source = call.source) :
      Behaves E (entries ++ [⟨call, moves, .ok outcome⟩]) store'
  /-- The call is refused. -/
  | error {entries : List Entry} {store : Store} {call : Call} {moves : List (Move Row)}
      {error : CandidateError} (h : Behaves E entries store) (hok : Move.fail ∉ moves)
      (hanswer : store.parseOnce E call = .error error) :
      Behaves E (entries ++ [⟨call, moves, .error error⟩]) store
  /-- A statement of the call fails. -/
  | failed {entries : List Entry} {store : Store} {call : Call} {moves : List (Move Row)}
      (h : Behaves E entries store) (hfail : Move.fail ∈ moves) :
      Behaves E (entries ++ [⟨call, moves, repositoryError⟩]) store

/-! ## The coupling -/

/-- The tables hold the two maps. -/
structure Represents (E : Externals) (tables : List Row) (store : Store) : Prop where
  /-- The tables meet the constraints of the migration. -/
  valid : schema.Valid tables
  /-- The digest of a document version is the digest of its runs. -/
  digest_eq_some_iff : ∀ version digest, store.digest version = some digest ↔
    ∃ run, Row.run run ∈ tables ∧ run.version = version ∧ run.contentDigest = digest
  /-- The logical parses are the runs. -/
  candidates_isSome_iff : ∀ key, (store.candidates key).isSome ↔ HasRun tables key
  /-- The candidates of a run are its rows in the second table. -/
  candidates_rows : ∀ key candidates, store.candidates key = some candidates →
    (tables.filter (isCandidateOf key) : Multiset Row) = candidates.map (candidateRow E key)

variable {E : Externals} {tables rows : List Row} {store : Store} {call : Call}
  {moves : List (Move Row)} {answer : ParseResult} {entries : List Entry}

/-- Stored candidates as a multiset. -/
theorem stored_iff {key : RunKey} {candidates : List Candidate} :
    Stored E tables key candidates ↔
      (tables.filter (isCandidateOf key) : Multiset Row) =
        (candidates : Multiset Candidate).map (candidateRow E key) := by
  unfold Stored
  rw [Multiset.map_coe, Multiset.coe_eq_coe]

/-- Empty tables hold empty maps. -/
theorem Represents.nil : Represents E [] .empty where
  valid := .nil
  digest_eq_some_iff version digest := by simp [Store.empty]
  candidates_isSome_iff key := by simp [Store.empty, not_hasRun_nil]
  candidates_rows key candidates h := by simp [Store.empty] at h

/-- The candidates of a run have been stored. -/
theorem Represents.exists_stored (h : Represents E tables store) {key : RunKey}
    (hrun : HasRun tables key) :
    ∃ candidates : List Candidate, store.candidates key = some (candidates : Multiset Candidate) ∧
      Stored E tables key candidates := by
  obtain ⟨candidates, hsome⟩ := Option.isSome_iff_exists.mp ((h.candidates_isSome_iff key).mpr hrun)
  induction candidates using Quotient.inductionOn with
  | h candidates => exact ⟨candidates, hsome, stored_iff.mpr (h.candidates_rows key _ hsome)⟩

/-- The digest check looks at the digest of the document version. -/
theorem Represents.conflicts_iff (h : Represents E tables store) (key : RunKey) :
    Conflicts tables key ↔
      (store.digest key.version).any (fun digest => digest ≠ key.contentDigest) = true := by
  cases hdigest : store.digest key.version with
  | none =>
    refine iff_of_false ?_ (by simp)
    rintro ⟨run, hrun, hid, hversion, -⟩
    have hsome := (h.digest_eq_some_iff key.version run.contentDigest).mpr
      ⟨run, hrun, Prod.ext hid hversion, rfl⟩
    rw [hdigest] at hsome
    cases hsome
  | some digest =>
    have hdigests := h.digest_eq_some_iff key.version
    rw [hdigest] at hdigests
    rw [Option.any_some, decide_eq_true_eq]
    constructor
    · rintro ⟨run, hrun, hid, hversion, hne⟩ rfl
      exact hne (Option.some.inj ((hdigests _).mpr ⟨run, hrun, Prod.ext hid hversion, rfl⟩)).symm
    · intro hne
      obtain ⟨run, hrun, hversion, rfl⟩ := (hdigests digest).mp rfl
      exact ⟨run, hrun, (Prod.mk.inj hversion).1, (Prod.mk.inj hversion).2, hne⟩

/-- The rows of a new run are recorded in the maps. -/
theorem Represents.record (h : Represents E tables store)
    (hvalid : schema.Valid (tables ++ call.rows E)) (hfree : ¬ Conflicts tables (call.key E))
    (hnew : ¬ HasRun tables (call.key E)) :
    Represents E (tables ++ call.rows E) (store.record (call.key E) (call.candidates E)) := by
  refine ⟨hvalid, fun version digest => ?_, fun key => ?_, fun key candidates hsome => ?_⟩
  · by_cases hversion : version = (call.key E).version
    · subst hversion
      rw [Store.digest_record_self, Option.some.injEq]
      constructor
      · rintro rfl
        exact ⟨⟨call.key E, _⟩, List.mem_append_right _ List.mem_cons_self, rfl, rfl⟩
      · rintro ⟨run, hrun, hversion, rfl⟩
        rcases run_mem_append_rows hrun with hrun | hkey
        · by_contra hne
          exact hfree ⟨run, hrun, (Prod.mk.inj hversion).1, (Prod.mk.inj hversion).2, Ne.symm hne⟩
        · rw [hkey]
    · rw [Store.digest_record_of_ne _ _ hversion, h.digest_eq_some_iff]
      constructor
      · rintro ⟨run, hrun, hrest⟩
        exact ⟨run, List.mem_append_left _ hrun, hrest⟩
      · rintro ⟨run, hrun, hrest⟩
        rcases run_mem_append_rows hrun with hrun | hkey
        · exact ⟨run, hrun, hrest⟩
        · exact absurd (hrest.1.symm.trans (congrArg RunKey.version hkey)) hversion
  · rw [hasRun_append_rows]
    by_cases hkey : key = call.key E
    · simp [hkey]
    · rw [Store.candidates_record_of_ne _ _ hkey, h.candidates_isSome_iff, or_iff_left hkey]
  · by_cases hkey : key = call.key E
    · subst hkey
      rw [Store.candidates_record_self, Option.some.injEq] at hsome
      rw [← hsome]
      exact stored_iff.mp (stored_append_rows h.valid hnew).2
    · rw [Store.candidates_record_of_ne _ _ hkey] at hsome
      have hnone : (call.rows E).filter (isCandidateOf key) = [] :=
        List.filter_eq_nil_iff.mpr fun row hrow => by
          simp [isCandidateOf_of_mem_rows (Ne.symm hkey) row hrow]
      rw [List.filter_append, hnone, List.append_nil]
      exact h.candidates_rows key candidates hsome

/-! ## The refinement -/

/-- One call that is executed alone answers as the abstract state does, and the tables hold the new
state. -/
theorem Represents.answered (hE : E.Lawful) (h : Represents E tables store)
    (hvalid : schema.Valid (tables ++ rows))
    (hanswered : Answered E call tables moves rows answer) :
    ∃ store', Represents E (tables ++ rows) store' ∧ ∀ entries, Behaves E entries store →
      Behaves E (entries ++ [⟨call, moves, answer⟩]) store' := by
  cases hanswered with
  | failed hfail => exact ⟨store, by rwa [List.append_nil], fun _ hb => hb.failed hfail⟩
  | blank hok hblank =>
    refine ⟨store, by rwa [List.append_nil], fun _ hb => hb.error hok ?_⟩
    unfold Store.parseOnce
    rw [if_pos (by simpa [Call.IsReadable] using hblank)]
  | mismatched hok hread hconflict =>
    refine ⟨store, by rwa [List.append_nil], fun _ hb => hb.error hok ?_⟩
    unfold Store.parseOnce
    rw [if_neg (by simpa [Call.IsReadable] using hread),
      if_pos ((h.conflicts_iff _).mp hconflict)]
  | @repeated hok hread hfree hrun candidates hs =>
    refine ⟨store, by rwa [List.append_nil], fun _ hb => hb.ok hok ?_ rfl⟩
    obtain ⟨candidates', hsome, hs'⟩ := h.exists_stored hrun
    have hsame : (candidates' : Multiset Candidate) = candidates :=
      Multiset.coe_eq_coe.mpr (hs'.perm hE hs)
    unfold Store.parseOnce
    rw [if_neg (by simpa [Call.IsReadable] using hread),
      if_neg (fun hany => hfree ((h.conflicts_iff _).mpr hany)), hsome, hsame]
  | fresh hok hread hfree hnew =>
    refine ⟨_, h.record hvalid hfree hnew, fun _ hb => hb.ok hok ?_ rfl⟩
    have hnone : store.candidates (call.key E) = none := by
      rw [← Option.not_isSome_iff_eq_none, h.candidates_isSome_iff]
      exact hnew
    unfold Store.parseOnce
    rw [if_neg (by simpa [Call.IsReadable] using hread),
      if_neg (fun hany => hfree ((h.conflicts_iff _).mpr hany)), hnone]

/-- The tables behind a history refine an abstract state. -/
structure Refines (E : Externals) (entries : List Entry) (tables : List Row) (store : Store) :
    Prop where
  /-- All answers were those of the abstract state. -/
  behaves : Behaves E entries store
  /-- The tables hold the abstract state. -/
  represents : Represents E tables store
  /-- A call that is answered with an error leaves the tables as they are. -/
  error_keeps : ∀ call moves rows error,
    runAlone schema tables [] (parseOnce E call) moves = some (rows, .error error) → rows = []
  /-- A call whose UUIDs are new can be answered without a failure. -/
  progress : ∀ call : Call, call.HasNewIds E tables → ∃ moves rows answer, Move.fail ∉ moves ∧
    runAlone schema tables [] (parseOnce E call) moves = some (rows, answer)

/-- What a call answers when it is executed alone on tables that hold an abstract state. -/
theorem Represents.answered_of_runAlone (hE : E.Lawful) (h : Represents E tables store)
    (hrun : runAlone schema tables [] (parseOnce E call) moves = some (rows, answer)) :
    Answered E call tables moves rows answer := by
  refine .of_evaluates hE h.valid (fun hrun => ?_) (runAlone_eq_some_iff.mp hrun)
  obtain ⟨candidates, -, hs⟩ := h.exists_stored hrun
  exact ⟨candidates, hs⟩

/-- One call that is executed alone takes tables that hold an abstract state to tables that hold the
next one. -/
theorem Represents.next (hE : E.Lawful) (h : Represents E tables store)
    (hrun : runAlone schema tables [] (parseOnce E call) moves = some (rows, answer)) :
    ∃ store', Represents E (tables ++ rows) store' ∧ ∀ entries, Behaves E entries store →
      Behaves E (entries ++ [⟨call, moves, answer⟩]) store' :=
  h.answered hE (h.valid.of_evaluates (runAlone_eq_some_iff.mp hrun))
    (h.answered_of_runAlone hE hrun)

/-- Along every history of calls, the two tables refine the two maps. -/
theorem history_refines (hE : E.Lawful) (h : History E entries tables) :
    ∃ store, Refines E entries tables store := by
  have hmain : ∃ store, Behaves E entries store ∧ Represents E tables store := by
    induction h with
    | nil => exact ⟨.empty, .nil, .nil⟩
    | snoc h hrun ih =>
      obtain ⟨store, hbehaves, hrepresents⟩ := ih
      obtain ⟨store', hrepresents', hnext⟩ := hrepresents.next hE hrun
      exact ⟨store', hnext _ hbehaves, hrepresents'⟩
  obtain ⟨store, hbehaves, hrepresents⟩ := hmain
  refine ⟨store, hbehaves, hrepresents, fun call moves rows error hrun => ?_, fun call hids => ?_⟩
  · cases hrepresents.answered_of_runAlone hE hrun <;> rfl
  · obtain ⟨moves, rows, answer, hok, heval⟩ := canEnd_parseOnce hE hrepresents.valid
      (fun hrun => (hrepresents.exists_stored hrun).imp fun _ hs => hs.2) fun _ => hids
    exact ⟨moves, rows, answer, hok, runAlone_eq_some_iff.mpr heval⟩

/-- A new parse, one that fails when it inserts its run, and a repeated one. -/
def exampleEntries : List Entry :=
  [⟨exampleCalls .first, [.go [], .go [], .go [], .go [], .go []],
      .ok ⟨exampleSource, (exampleCalls .first).candidates .reference, false⟩⟩,
    ⟨exampleCalls .second, [.go [(exampleCalls .first).runRow .reference], .fail], repositoryError⟩,
    ⟨exampleCalls .second, [.go [(exampleCalls .first).runRow .reference],
        .go [(exampleCalls .first).runRow .reference],
        .go (((exampleCalls .first).candidates .reference).map
          (candidateRow .reference ((exampleCalls .first).key .reference))), .go []],
      .ok ⟨exampleSource, (exampleCalls .first).candidates .reference, true⟩⟩]

/-- The history of the example refines an abstract state. -/
theorem history_refines_example :
    ∃ store, Refines .reference exampleEntries ((exampleCalls .first).rows .reference) store := by
  have hrows : [] ++ (exampleCalls .first).rows .reference ++ [] ++ [] =
      (exampleCalls .first).rows .reference := by simp
  rw [← hrows]
  refine history_refines Externals.reference_lawful (.snoc (.snoc (.snoc .nil ?_) ?_) ?_)
  · decide +kernel
  · decide +kernel
  · decide +kernel

end Pf2eParser
