/-
  PatchPresence.Proofs.CommandLine.Counts — the numbers of analysed and failed methods in a report.

  An artifact files methods by signature, and the numbers of a report are taken from the list of the request: a
  method counts as failed once for each time that it is requested, and what is left of the artifact counts as
  analysed. So the numbers are those of the artifact exactly as long as no method that failed is requested twice.

  Main results:
    * `TargetArtifact.successes_add_failures` — every method of an artifact is analysed or has failed.
    * `CommandLine.failedCount_eq_failures_iff` — when requests are counted as often as methods.
    * `CommandLine.reportDocument_counts` — what the two numbers of a report are.
    * `CommandLine.reportDocument_counts_repeated` — a request for which neither is that of the artifact.
-/
import Mathlib.Data.List.Perm.Subperm
import PatchPresence.CommandLine.Run
import PatchPresence.Proofs.KeyOrder
import PatchPresence.Proofs.Outcome

namespace PatchPresence

/-! ## §1. Repetitions. -/

section

variable {α : Type} {distinct items : List α}

/-- A list with the elements of a list without repetitions is at least as long. -/
theorem length_le_of_mem_iff (hdistinct : distinct.Nodup) (h : ∀ x, x ∈ distinct ↔ x ∈ items) :
    distinct.length ≤ items.length :=
  (hdistinct.subperm fun x hx => (h x).1 hx).length_le

/-- It is just as long when it has no repetitions either. -/
theorem length_eq_iff_nodup (hdistinct : distinct.Nodup) (h : ∀ x, x ∈ distinct ↔ x ∈ items) :
    items.length = distinct.length ↔ items.Nodup := by
  constructor
  · intro hlength
    have hperm : distinct.Perm items :=
      (hdistinct.subperm fun x hx => (h x).1 hx).perm_of_length_le (Nat.le_of_eq hlength)
    exact hperm.nodup_iff.1 hdistinct
  · intro hitems
    exact ((List.perm_ext_iff_of_nodup hitems hdistinct).2 fun x => (h x).symm).length_eq

end

/-! ## §2. Artifacts. -/

namespace TargetArtifact

/-- Number of methods that are analysed. -/
def successes (artifact : TargetArtifact) : Nat := artifact.methods.values.countP Except.isOk

/-- Number of methods whose analysis failed. -/
def failures (artifact : TargetArtifact) : Nat := artifact.methods.values.countP fun outcome => !outcome.isOk

theorem successes_add_failures (artifact : TargetArtifact) :
    artifact.successes + artifact.failures = artifact.size := by
  have hvalues : artifact.methods.values.length = artifact.size := List.length_map _
  rw [← hvalues, List.length_eq_countP_add_countP Except.isOk]
  simp [successes, failures]

/-- Signatures of the methods whose analysis failed. -/
def failed (artifact : TargetArtifact) : List MethodSignature :=
  (artifact.methods.entries.filter fun entry => !entry.2.isOk).map Prod.fst

theorem length_failed (artifact : TargetArtifact) : artifact.failed.length = artifact.failures := by
  unfold failed failures Table.values
  rw [List.length_map, List.countP_map, List.countP_eq_length_filter]
  rfl

variable (bodies : List MethodBody) (config : Config)

theorem sorted_analyze : (analyze bodies config).methods.Sorted := Table.sorted_ofList _

theorem nodup_failed_analyze : (analyze bodies config).failed.Nodup :=
  (Ascending.Strict.nodup (sorted_analyze bodies config)).sublist (List.filter_sublist.map Prod.fst)

theorem mem_failed_analyze {signature : MethodSignature} :
    signature ∈ (analyze bodies config).failed
      ↔ ∃ error, (analyze bodies config).get? signature = some (.error error) := by
  unfold failed
  rw [List.mem_map]
  constructor
  · rintro ⟨⟨key, outcome⟩, hentry, rfl⟩
    obtain ⟨hmem, hfailed⟩ := List.mem_filter.1 hentry
    cases outcome with
    | ok set => cases hfailed
    | error error => exact ⟨error, (sorted_analyze bodies config).get?_of_mem hmem⟩
  · rintro ⟨error, hget⟩
    exact ⟨(signature, .error error), List.mem_filter.2 ⟨Table.mem_entries_of_get? hget, rfl⟩, rfl⟩

/-- An artifact holds no method but those that it is made from. -/
theorem exists_body_of_get?_analyze {signature : MethodSignature} {outcome : Outcome FeatureSet}
    (h : (analyze bodies config).get? signature = some outcome) : signature ∈ bodies.map MethodBody.signature := by
  have hkeys : (bodies.map fun body => (body.signature, body.features config)).map Prod.fst
      = bodies.map MethodBody.signature := by
    rw [List.map_map]
    rfl
  rw [← hkeys]
  refine Decidable.by_contra fun hnot => ?_
  have hnone : (analyze bodies config).get? signature = none := Table.get?_insertAll_of_notMem _ _ _ hnot
  rw [hnone] at h
  cases h

end TargetArtifact

/-! ## §3. Requests. -/

namespace CommandLine

/-- Signatures of the bodies of a request whose method is filed as failed, as often as they are requested. -/
def failedRequests (bodies : List MethodBody) (artifact : TargetArtifact) : List MethodSignature :=
  (bodies.map MethodBody.signature).filter fun signature => signature ∈ artifact.failed

variable (bodies : List MethodBody) (config : Config)

theorem failedCount_eq_length :
    failedCount bodies (.analyze bodies config) = (failedRequests bodies (.analyze bodies config)).length := by
  unfold failedCount failedRequests
  rw [List.filter_map, List.length_map]
  congr 2
  funext body
  rw [Function.comp_apply]
  -- a lookup finds an error for the signatures that failed, and for no others
  by_cases hmem : body.signature ∈ (TargetArtifact.analyze bodies config).failed
  · obtain ⟨error, hget⟩ := (TargetArtifact.mem_failed_analyze bodies config).1 hmem
    rw [hget, decide_eq_true hmem]
  · rw [decide_eq_false hmem]
    cases hget : (TargetArtifact.analyze bodies config).get? body.signature with
    | none => rfl
    | some outcome =>
      cases outcome with
      | ok set => rfl
      | error error => exact absurd ((TargetArtifact.mem_failed_analyze bodies config).2 ⟨error, hget⟩) hmem

/-- A method that failed was requested. -/
theorem mem_failedRequests_iff {signature : MethodSignature} :
    signature ∈ (TargetArtifact.analyze bodies config).failed
      ↔ signature ∈ failedRequests bodies (.analyze bodies config) := by
  unfold failedRequests
  rw [List.mem_filter, decide_eq_true_iff]
  refine ⟨fun hfailed => ⟨?_, hfailed⟩, And.right⟩
  obtain ⟨error, hget⟩ := (TargetArtifact.mem_failed_analyze bodies config).1 hfailed
  exact TargetArtifact.exists_body_of_get?_analyze bodies config hget

theorem failures_le_failedCount :
    (TargetArtifact.analyze bodies config).failures ≤ failedCount bodies (.analyze bodies config) := by
  rw [failedCount_eq_length, ← TargetArtifact.length_failed]
  exact length_le_of_mem_iff (TargetArtifact.nodup_failed_analyze bodies config)
    fun _ => mem_failedRequests_iff bodies config

/-- No method whose analysis failed is requested twice. -/
def FailedOnce (bodies : List MethodBody) (config : Config) : Prop :=
  ∀ signature error, (TargetArtifact.analyze bodies config).get? signature = some (.error error) →
    (bodies.map MethodBody.signature).count signature ≤ 1

theorem nodup_failedRequests_iff :
    (failedRequests bodies (.analyze bodies config)).Nodup ↔ FailedOnce bodies config := by
  have hcount : ∀ signature ∈ (TargetArtifact.analyze bodies config).failed,
      (failedRequests bodies (.analyze bodies config)).count signature
        = (bodies.map MethodBody.signature).count signature :=
    fun signature hfailed => List.count_filter (by simpa using hfailed)
  rw [List.nodup_iff_count_le_one]
  constructor
  · intro h signature error hget
    rw [← hcount signature ((TargetArtifact.mem_failed_analyze bodies config).2 ⟨error, hget⟩)]
    exact h signature
  · intro h signature
    by_cases hfailed : signature ∈ (TargetArtifact.analyze bodies config).failed
    · obtain ⟨error, hget⟩ := (TargetArtifact.mem_failed_analyze bodies config).1 hfailed
      rw [hcount signature hfailed]
      exact h signature error hget
    · rw [List.count_eq_zero_of_not_mem fun hmem => hfailed ((mem_failedRequests_iff bodies config).2 hmem)]
      exact Nat.zero_le 1

theorem failedCount_eq_failures_iff :
    failedCount bodies (.analyze bodies config) = (TargetArtifact.analyze bodies config).failures
      ↔ FailedOnce bodies config := by
  rw [failedCount_eq_length, ← TargetArtifact.length_failed, ← nodup_failedRequests_iff]
  exact length_eq_iff_nodup (TargetArtifact.nodup_failed_analyze bodies config)
    fun _ => mem_failedRequests_iff bodies config

/-! ## §4. Reports. -/

/-- A member of an object. -/
def member? (name : String) : Json → Option Json
  | .object members => members.lookup name
  | _ => none

/-- What a report says of the run that it is from. -/
def invocation? (document : Json) (name : String) : Option Json :=
  (member? "invocation" document).bind (member? name)

theorem invocation?_reportDocument (arguments : List String) (config : Config) (request : Request) :
    let artifact := TargetArtifact.analyze request.methods config
    invocation? (reportDocument arguments config request) "failed_methods"
        = some (.ofNat (failedCount request.methods artifact))
      ∧ invocation? (reportDocument arguments config request) "analysed_methods"
        = some (.ofNat (artifact.size - failedCount request.methods artifact)) :=
  ⟨rfl, rfl⟩

/-- Both numbers of a report are those of the artifact exactly as long as no method that failed is requested twice,
    and then they add up to its size. In every case a method that failed counts once for each request, so that
    no fewer are reported than there are, and the rest of the size counts as analysed. -/
theorem reportDocument_counts (arguments : List String) (config : Config) (request : Request) :
    ∃ failed analysed : Nat,
      invocation? (reportDocument arguments config request) "failed_methods" = some (.ofNat failed)
      ∧ invocation? (reportDocument arguments config request) "analysed_methods" = some (.ofNat analysed)
      ∧ (failed = (TargetArtifact.analyze request.methods config).failures
          ∧ analysed = (TargetArtifact.analyze request.methods config).successes
          ∧ analysed + failed = (TargetArtifact.analyze request.methods config).size
        ↔ FailedOnce request.methods config)
      ∧ failed = request.methods.countP (fun body =>
          body.signature ∈ (TargetArtifact.analyze request.methods config).failed)
      ∧ (TargetArtifact.analyze request.methods config).failures ≤ failed
      ∧ analysed = (TargetArtifact.analyze request.methods config).size - failed := by
  have hsize := (TargetArtifact.analyze request.methods config).successes_add_failures
  obtain ⟨hfailed, hanalysed⟩ := invocation?_reportDocument arguments config request
  refine ⟨_, _, hfailed, hanalysed, ?_, ?_, failures_le_failedCount request.methods config, rfl⟩
  · -- the number of failures decides the rest, since what is not a failure is a success
    rw [← failedCount_eq_failures_iff]
    refine ⟨And.left, fun hcount => ⟨hcount, ?_, ?_⟩⟩
    · omega
    · omega
  · rw [failedCount_eq_length, failedRequests, List.filter_map, List.length_map, List.countP_eq_length_filter]
    rfl

/-- A method without instructions. -/
def emptyBody : MethodBody := ⟨⟨"a/Run", "run", "()V", true⟩, [], []⟩

/-- A method that returns at once. -/
def returningBody : MethodBody := ⟨⟨"a/Run", "stop", "()V", true⟩, [⟨0, 0xb1, .none, none⟩], []⟩

namespace ReturningBody

/-- The flow graph of `returningBody`. -/
def graph : Graph := ⟨[⟨0, ⟨0, 0xb1, .none, none⟩, [], [⟨.exit, .leave⟩]⟩]⟩

theorem build_eq : Graph.build returningBody.instructions returningBody.handlers = .ok graph := by rfl

theorem exists_features_eq : ∃ set, returningBody.features {} = .ok set := by
  have hreachable : graph.reachable = [0] := by cbv
  have hsets : DominatorSets.iterate graph 32 (.initial graph) = some [some [0]] := by
    simp only [DominatorSets.iterate, DominatorSets.round, DominatorSets.initial, hreachable]
    decide +kernel
  have hcompute : Dominators.compute graph 32 = .ok (.ofSets [some [0]]) := by
    rw [Dominators.compute, if_neg (by decide), hsets]
  have hinfer : OperandTyping.infer graph returningBody.signature returningBody.handlers ⟨false, 32⟩
      = .ok ⟨⟨[(0, ⟨[], []⟩)]⟩, ⟨.empty, []⟩⟩ := eq_ok_of_toOption (by decide +kernel)
  exact ⟨_, bind_eq_ok_iff.2 ⟨graph, build_eq, bind_eq_ok_iff.2 ⟨_, hcompute, bind_eq_ok_iff.2 ⟨_, hinfer, rfl⟩⟩⟩⟩

end ReturningBody

/-- A request that names one method twice. -/
def repeatedRequest : Request := ⟨[emptyBody, emptyBody, returningBody], []⟩

/-- One method that failed, requested twice, counts for two and takes a method that is analysed off the count. -/
theorem reportDocument_counts_repeated :
    invocation? (reportDocument [] {} repeatedRequest) "failed_methods" = some (.ofNat 2)
      ∧ invocation? (reportDocument [] {} repeatedRequest) "analysed_methods" = some (.ofNat 0)
      ∧ (TargetArtifact.analyze repeatedRequest.methods {}).failures = 1
      ∧ (TargetArtifact.analyze repeatedRequest.methods {}).successes = 1 := by
  have hempty : emptyBody.features {} = .error (.malformedCode 0 .empty) := by rfl
  obtain ⟨set, hreturning⟩ := ReturningBody.exists_features_eq
  have hbehind : compare returningBody.signature emptyBody.signature = .gt := by decide +kernel
  have hartifact : TargetArtifact.analyze repeatedRequest.methods {}
      = ⟨⟨[(emptyBody.signature, .error (.malformedCode 0 .empty)), (returningBody.signature, .ok set)]⟩⟩ := by
    simp only [TargetArtifact.analyze, repeatedRequest, List.map_cons, List.map_nil, hempty, hreturning]
    simp [Table.ofList, Table.insertAll, Table.insert, Table.upsert, Table.upsertEntry, Table.empty, hbehind]
  have hcount : failedCount repeatedRequest.methods (.analyze repeatedRequest.methods {}) = 2 := by
    rw [hartifact]
    simp [failedCount, repeatedRequest, TargetArtifact.get?, Table.get?, Table.find?, hbehind]
  obtain ⟨hfailed, hanalysed⟩ := invocation?_reportDocument [] {} repeatedRequest
  rw [hfailed, hanalysed, hcount, hartifact]
  exact ⟨rfl, rfl, rfl, rfl⟩

end CommandLine

end PatchPresence
