import Thingd.ThingDb.WalTail

namespace Thingd.ThingDb

def maxGroupOperations : ℕ := 4096

def maxGroupBytes : ℕ := 4 * 1024 * 1024

structure Submitted where
  response : ℕ
  request : CommitRequest

namespace Submitted

def operationCount (submitted : Submitted) : ℕ := submitted.request.operations.length

def encodedBytes (submitted : Submitted) : ℕ := encodedFrameCapacity submitted.request.operations

end Submitted

inductive Poll
  | received (submitted : Submitted)
  | empty
  | disconnected

def Poll.request? : Poll → Option Submitted
  | .received submitted => some submitted
  | _ => none

structure Gathered where
  group : List Submitted
  pending : Option Submitted
  rest : List Poll

namespace Writer

def fits (operationCount operationBytes : ℕ) (submitted : Submitted) : Bool :=
  decide (operationCount + submitted.operationCount ≤ maxGroupOperations) &&
    decide (operationBytes + submitted.encodedBytes ≤ maxGroupBytes)

def fillGroup (group : List Submitted) (operationCount operationBytes : ℕ) : List Poll → Gathered
  | [] => ⟨group, none, []⟩
  | poll :: polls =>
    if maxGroupOperations ≤ operationCount ∨ maxGroupBytes ≤ operationBytes then ⟨group, none, poll :: polls⟩
    else
      match poll with
      | .received submitted =>
        if fits operationCount operationBytes submitted then
          fillGroup (group ++ [submitted]) (operationCount + submitted.operationCount)
            (operationBytes + submitted.encodedBytes) polls
        else ⟨group, some submitted, polls⟩
      | _ => ⟨group, none, polls⟩

def formGroup (first : Submitted) : List Poll → Gathered
  | [] => ⟨[first], none, []⟩
  | .received submitted :: polls =>
    if fits first.operationCount first.encodedBytes submitted then
      fillGroup [first, submitted] (first.operationCount + submitted.operationCount)
        (first.encodedBytes + submitted.encodedBytes) polls
    else ⟨[first], some submitted, polls⟩
  | _ :: polls => ⟨[first], none, polls⟩

def receive : List Poll → Option Submitted × List Poll
  | [] => (none, [])
  | .received submitted :: polls => (some submitted, polls)
  | .empty :: polls => receive polls
  | .disconnected :: polls => (none, polls)

theorem length_fillGroup (group : List Submitted) (operationCount operationBytes : ℕ) (polls : List Poll) :
    (fillGroup group operationCount operationBytes polls).rest.length +
      (fillGroup group operationCount operationBytes polls).pending.toList.length ≤ polls.length := by
  induction polls generalizing group operationCount operationBytes with
  | nil => simp [fillGroup]
  | cons poll polls ih =>
    cases poll with
    | received submitted =>
      simp only [fillGroup]
      split_ifs
      · simp
      · exact (ih _ _ _).trans (Nat.le_succ _)
      · simp
    | empty =>
      simp only [fillGroup]
      split_ifs <;> simp
    | disconnected =>
      simp only [fillGroup]
      split_ifs <;> simp

theorem length_formGroup (first : Submitted) (polls : List Poll) :
    (formGroup first polls).rest.length + (formGroup first polls).pending.toList.length ≤ polls.length := by
  cases polls with
  | nil => simp [formGroup]
  | cons poll polls =>
    cases poll with
    | received submitted =>
      rw [formGroup]
      split_ifs
      · exact (length_fillGroup _ _ _ _).trans (Nat.le_succ _)
      · simp
    | empty => simp [formGroup]
    | disconnected => simp [formGroup]

variable {polls rest : List Poll} {first : Submitted} {group : List Submitted}

theorem length_receive (h : receive polls = (some first, rest)) : rest.length < polls.length := by
  induction polls with
  | nil => simp [receive] at h
  | cons poll polls ih =>
    cases poll with
    | received submitted =>
      simp only [receive, Prod.mk.injEq] at h
      simp [h.2]
    | empty => exact (ih h).trans (Nat.lt_succ_self _)
    | disconnected => simp [receive] at h

def nextRequest (pending : Option Submitted) (polls : List Poll) : Option Submitted × List Poll :=
  match pending with
  | some submitted => (some submitted, polls)
  | none => receive polls

theorem length_turn {pending : Option Submitted} (h : nextRequest pending polls = (some first, rest)) :
    2 * (formGroup first rest).rest.length + (formGroup first rest).pending.toList.length <
      2 * polls.length + pending.toList.length := by
  have hlength := length_formGroup first rest
  cases pending with
  | some submitted =>
    obtain ⟨rfl, rfl⟩ := h
    simp only [Option.toList_some, List.length_singleton]
    omega
  | none =>
    have hreceive := length_receive h
    omega

/-- The groups that `writer_loop` hands on, and the polls that it leaves when it returns. -/
def writerLoop (pending : Option Submitted) (polls : List Poll) : List (List Submitted) × List Poll :=
  match hfirst : nextRequest pending polls with
  | (none, rest) => ([], rest)
  | (some first, rest) =>
    have := length_turn hfirst
    let gathered := formGroup first rest
    let (groups, left) := writerLoop gathered.pending gathered.rest
    (gathered.group :: groups, left)
termination_by 2 * polls.length + pending.toList.length

section Order

def requests (polls : List Poll) : List Submitted := polls.filterMap Poll.request?

theorem fillGroup_order (group : List Submitted) (operationCount operationBytes : ℕ) (polls : List Poll) :
    ∃ used, polls = used ++ (fillGroup group operationCount operationBytes polls).rest ∧
      (fillGroup group operationCount operationBytes polls).group ++
        (fillGroup group operationCount operationBytes polls).pending.toList = group ++ requests used := by
  induction polls generalizing group operationCount operationBytes with
  | nil => exact ⟨[], by simp [fillGroup, requests]⟩
  | cons poll polls ih =>
    cases poll with
    | received submitted =>
      simp only [fillGroup]
      split_ifs
      · exact ⟨[], by simp [requests]⟩
      · obtain ⟨used, hpolls, horder⟩ := ih (group ++ [submitted]) (operationCount + submitted.operationCount)
          (operationBytes + submitted.encodedBytes)
        refine ⟨.received submitted :: used, congrArg (Poll.received submitted :: ·) hpolls, ?_⟩
        rw [horder, List.append_assoc]
        rfl
      · exact ⟨[.received submitted], rfl, rfl⟩
    | empty =>
      simp only [fillGroup]
      split_ifs
      · exact ⟨[], by simp [requests]⟩
      · exact ⟨[.empty], by simp [requests, Poll.request?]⟩
    | disconnected =>
      simp only [fillGroup]
      split_ifs
      · exact ⟨[], by simp [requests]⟩
      · exact ⟨[.disconnected], by simp [requests, Poll.request?]⟩

theorem formGroup_order (first : Submitted) (polls : List Poll) :
    ∃ used, polls = used ++ (formGroup first polls).rest ∧
      (formGroup first polls).group ++ (formGroup first polls).pending.toList = first :: requests used := by
  cases polls with
  | nil => exact ⟨[], rfl, rfl⟩
  | cons poll polls =>
    cases poll with
    | received submitted =>
      simp only [formGroup]
      split_ifs
      · obtain ⟨used, hpolls, horder⟩ := fillGroup_order [first, submitted]
          (first.operationCount + submitted.operationCount) (first.encodedBytes + submitted.encodedBytes) polls
        exact ⟨.received submitted :: used, congrArg (Poll.received submitted :: ·) hpolls, horder⟩
      · exact ⟨[.received submitted], rfl, rfl⟩
    | empty => exact ⟨[.empty], rfl, rfl⟩
    | disconnected => exact ⟨[.disconnected], rfl, rfl⟩

def Ended (used rest : List Poll) : Prop := rest = [] ∨ used.getLast? = some .disconnected

theorem Ended.append {used : List Poll} (h : Ended used rest) (earlier : List Poll) : Ended (earlier ++ used) rest := by
  rcases h with h | h
  · exact Or.inl h
  · refine Or.inr ?_
    rw [List.getLast?_append, h]
    rfl

theorem receive_order (polls : List Poll) :
    ∃ used, polls = used ++ (receive polls).2 ∧ requests used = (receive polls).1.toList ∧
      ((receive polls).1 = none → Ended used (receive polls).2) := by
  induction polls with
  | nil => exact ⟨[], rfl, rfl, fun _ => Or.inl rfl⟩
  | cons poll polls ih =>
    cases poll with
    | received submitted => exact ⟨[.received submitted], rfl, rfl, fun h => absurd h (Option.some_ne_none _)⟩
    | empty =>
      obtain ⟨used, hpolls, horder, hended⟩ := ih
      exact ⟨.empty :: used, congrArg (Poll.empty :: ·) hpolls, horder, fun h => (hended h).append [.empty]⟩
    | disconnected => exact ⟨[.disconnected], rfl, rfl, fun _ => Or.inr rfl⟩

theorem nextRequest_order (pending : Option Submitted) (polls : List Poll) :
    ∃ used, polls = used ++ (nextRequest pending polls).2 ∧
      pending.toList ++ requests used = (nextRequest pending polls).1.toList ∧
      ((nextRequest pending polls).1 = none → Ended used (nextRequest pending polls).2) := by
  cases pending with
  | some submitted => exact ⟨[], rfl, rfl, fun h => absurd h (Option.some_ne_none _)⟩
  | none => exact receive_order polls

theorem writerLoop_order (pending : Option Submitted) (polls : List Poll) :
    ∃ used, polls = used ++ (writerLoop pending polls).2 ∧
      (writerLoop pending polls).1.flatten = pending.toList ++ requests used ∧
      Ended used (writerLoop pending polls).2 := by
  fun_induction writerLoop pending polls with
  | case1 pending polls rest hfirst =>
    obtain ⟨used, hpolls, horder, hended⟩ := nextRequest_order pending polls
    rw [hfirst] at hpolls horder hended
    exact ⟨used, hpolls, horder.symm, hended rfl⟩
  | case2 pending polls first rest hfirst hlength gathered groups left hloop ih =>
    obtain ⟨used, hpolls, horder, _⟩ := nextRequest_order pending polls
    obtain ⟨formed, hformed, hgroup⟩ := formGroup_order first rest
    obtain ⟨later, hlater, hgroups, hended⟩ := ih
    rw [hfirst] at hpolls horder
    rw [hloop] at hlater hgroups hended
    refine ⟨used ++ formed ++ later, ?_, ?_, hended.append _⟩
    · rw [hpolls, hformed, List.append_assoc, List.append_assoc]
      exact congrArg (fun rest => used ++ (formed ++ rest)) hlater
    · calc (gathered.group :: groups).flatten
          = gathered.group ++ (gathered.pending.toList ++ requests later) := by rw [List.flatten_cons, hgroups]
        _ = (first :: requests formed) ++ requests later := by rw [← List.append_assoc, hgroup]
        _ = pending.toList ++ requests used ++ requests formed ++ requests later := by rw [horder]; rfl
        _ = pending.toList ++ requests (used ++ formed ++ later) := by
          simp [requests]

end Order

section Bounds

def operationCount (group : List Submitted) : ℕ := (group.map Submitted.operationCount).sum

def encodedBytes (group : List Submitted) : ℕ := (group.map Submitted.encodedBytes).sum

def Bounded (group : List Submitted) : Prop :=
  operationCount group ≤ maxGroupOperations ∧ encodedBytes group ≤ maxGroupBytes

theorem counts_concat (group : List Submitted) (submitted : Submitted) :
    operationCount (group ++ [submitted]) = operationCount group + submitted.operationCount ∧
      encodedBytes (group ++ [submitted]) = encodedBytes group + submitted.encodedBytes := by
  simp [operationCount, encodedBytes]

theorem bounded_of_fits {submitted : Submitted}
    (h : fits (operationCount group) (encodedBytes group) submitted = true) : Bounded (group ++ [submitted]) := by
  obtain ⟨hcount, hbytes⟩ := counts_concat group submitted
  rw [fits, Bool.and_eq_true, decide_eq_true_eq, decide_eq_true_eq] at h
  rw [Bounded, hcount, hbytes]
  exact h

theorem fillGroup_bounded (h : Bounded group) (polls : List Poll) :
    Bounded (fillGroup group (operationCount group) (encodedBytes group) polls).group := by
  induction polls generalizing group with
  | nil => exact h
  | cons poll polls ih =>
    cases poll with
    | received submitted =>
      obtain ⟨hcount, hbytes⟩ := counts_concat group submitted
      simp only [fillGroup]
      split_ifs with hfull hfits
      · exact h
      · rw [← hcount, ← hbytes]
        exact ih (bounded_of_fits hfits)
      · exact h
    | empty =>
      simp only [fillGroup]
      split_ifs
      · exact h
      · exact h
    | disconnected =>
      simp only [fillGroup]
      split_ifs
      · exact h
      · exact h

theorem formGroup_bounded (first : Submitted) (polls : List Poll) :
    (formGroup first polls).group = [first] ∨ Bounded (formGroup first polls).group := by
  cases polls with
  | nil => exact Or.inl rfl
  | cons poll polls =>
    cases poll with
    | received submitted =>
      simp only [formGroup]
      split_ifs with hfits
      · have hstart : operationCount [first] = first.operationCount ∧ encodedBytes [first] = first.encodedBytes := by
          simp [operationCount, encodedBytes]
        obtain ⟨hcount, hbytes⟩ := counts_concat [first] submitted
        rw [hstart.1] at hcount
        rw [hstart.2] at hbytes
        rw [← hstart.1] at hfits
        rw [← hbytes]
        exact Or.inr (fillGroup_bounded (bounded_of_fits hfits) polls)
      · exact Or.inl rfl
    | empty => exact Or.inl rfl
    | disconnected => exact Or.inl rfl

theorem writerLoop_bounded (pending : Option Submitted) (polls : List Poll) :
    ∀ group ∈ (writerLoop pending polls).1, 1 < group.length → Bounded group := by
  fun_induction writerLoop pending polls with
  | case1 pending polls rest hfirst => exact List.forall_mem_nil _
  | case2 pending polls first rest hfirst hlength gathered groups left hloop ih =>
    rw [hloop] at ih
    refine List.forall_mem_cons.mpr ⟨fun hmany => ?_, ih⟩
    rcases formGroup_bounded first rest with hsingle | hbounded
    · rw [hsingle] at hmany
      exact absurd hmany (Nat.lt_irrefl 1)
    · exact hbounded

end Bounds

section Encoded

/-- What the requests of a group announce is the length of their frames: a buffer holds at most `isizeMax` bytes. -/
theorem length_encodeGroup {buffer out : Bytes} {sequence next : ℕ}
    (h : encodeGroup buffer sequence (group.map Submitted.request) = .ok (out, next)) (hfits : out.length ≤ isizeMax) :
    out.length = buffer.length + encodedBytes group := by
  induction group generalizing buffer sequence with
  | nil =>
    cases h
    rfl
  | cons submitted group ih =>
    simp only [encodedBytes, List.map_cons, List.sum_cons]
    obtain ⟨longer, hframe, h⟩ := result_bind_ok.mp h
    obtain ⟨frame, hencode, hframe⟩ := result_bind_ok.mp hframe
    cases hframe
    have hrest := ih h
    rw [List.length_append, encodedBytes] at hrest
    have hlength : frame.length = submitted.encodedBytes := encodeFrame_length hencode (by omega)
    omega

end Encoded

section Answers

def finishGroupWithError (group : List Submitted) (message : String) : List (Submitted × Result Unit) :=
  group.map fun submitted => (submitted, .error message)

def acknowledge (group : List Submitted) : List (Submitted × Result Unit) :=
  group.map fun submitted => (submitted, .ok ())

/-- What `process_group` meets: whether the database is still there, whether each of its locks can be taken, whether the
log is open, and what executing the group does. -/
structure Turn where
  upgraded : Bool
  readable : Bool
  gate : Bool
  lockable : Bool
  walOpen : Bool
  execute : Database → List CommitRequest → (Result Unit × Bool) × Database
  relocked : Bool

def settleGroup (relocked : Bool) (group : List Submitted) :
    (Result Unit × Bool) × Database → List (Submitted × Result Unit) × Database
  | ((.ok (), _), executed) =>
    if relocked then (acknowledge group, executed)
    else (finishGroupWithError group "database lock poisoned", executed)
  | ((.error message, synced), executed) =>
    if relocked then (finishGroupWithError group message, if synced then executed.requireRecovery else executed)
    else (finishGroupWithError group "database lock poisoned", executed)

def processGroup (turn : Turn) (db : Database) (group : List Submitted) : List (Submitted × Result Unit) × Database :=
  if !turn.upgraded then (finishGroupWithError group "ThingDB writer is unavailable", db)
  else if !turn.readable then (finishGroupWithError group "database lock poisoned", db)
  else if !turn.gate then (finishGroupWithError group "ThingDB commit gate poisoned", db)
  else if !turn.lockable then (finishGroupWithError group "database lock poisoned", db)
  else if db.inner.recoveryRequired then (finishGroupWithError group recoveryMessage, db)
  else
    match db.admitGroup with
    | (.error message, failed) => (finishGroupWithError group message, failed.requireRecovery)
    | (.ok (), admitted) =>
      if turn.walOpen then settleGroup turn.relocked group (turn.execute admitted (group.map Submitted.request))
      else (finishGroupWithError group "ThingDB WAL is unavailable", admitted)

theorem answers_map_fst (group : List Submitted) (result : Result Unit) :
    (group.map fun submitted => (submitted, result)).map Prod.fst = group := by
  rw [List.map_map]
  exact List.map_id _

theorem settleGroup_answers (relocked : Bool) (group : List Submitted) (executed : (Result Unit × Bool) × Database) :
    (settleGroup relocked group executed).1.map Prod.fst = group := by
  obtain ⟨⟨result, synced⟩, executed⟩ := executed
  cases result with
  | ok => cases relocked <;> exact answers_map_fst _ _
  | error message => cases relocked <;> exact answers_map_fst _ _

theorem processGroup_answers (turn : Turn) (db : Database) (group : List Submitted) :
    (processGroup turn db group).1.map Prod.fst = group := by
  simp only [processGroup]
  split_ifs
  · exact answers_map_fst _ _
  · exact answers_map_fst _ _
  · exact answers_map_fst _ _
  · exact answers_map_fst _ _
  · exact answers_map_fst _ _
  · obtain ⟨admission, admitted⟩ := db.admitGroup
    cases admission with
    | error message => exact answers_map_fst _ _
    | ok => exact settleGroup_answers _ _ _
  · obtain ⟨admission, admitted⟩ := db.admitGroup
    cases admission with
    | error message => exact answers_map_fst _ _
    | ok => exact answers_map_fst _ _

def processGroups (turn : ℕ → Turn) (db : Database) : List (List Submitted) → List (Submitted × Result Unit) × Database
  | [] => ([], db)
  | group :: groups =>
    let (answers, processed) := processGroup (turn 0) db group
    let (later, left) := processGroups (fun n => turn (n + 1)) processed groups
    (answers ++ later, left)

theorem processGroups_answers (turn : ℕ → Turn) (db : Database) (groups : List (List Submitted)) :
    (processGroups turn db groups).1.map Prod.fst = groups.flatten := by
  induction groups generalizing turn db with
  | nil => rfl
  | cons group groups ih =>
    simp only [processGroups, List.map_append, List.flatten_cons]
    rw [processGroup_answers, ih]

end Answers

theorem group_commit_keeps_requests (turn : ℕ → Turn) (db : Database) (polls : List Poll) :
    ∃ received,
      polls = received ++ (writerLoop none polls).2 ∧ Ended received (writerLoop none polls).2 ∧
      (writerLoop none polls).1.flatten = requests received ∧
      (processGroups turn db (writerLoop none polls).1).1.map Prod.fst = requests received ∧
      ∀ group ∈ (writerLoop none polls).1, 1 < group.length →
        operationCount group ≤ maxGroupOperations ∧ encodedBytes group ≤ maxGroupBytes ∧
        ∀ sequence buffer next, encodeGroup [] sequence (group.map Submitted.request) = .ok (buffer, next) →
          buffer.length ≤ isizeMax → buffer.length = encodedBytes group := by
  obtain ⟨received, hpolls, hgroups, hended⟩ := writerLoop_order none polls
  rw [Option.toList_none, List.nil_append] at hgroups
  refine ⟨received, hpolls, hended, hgroups, ?_, ?_⟩
  · rw [processGroups_answers, hgroups]
  · intro group hgroup hmany
    obtain ⟨hcount, hbytes⟩ := writerLoop_bounded none polls group hgroup hmany
    refine ⟨hcount, hbytes, fun sequence buffer next hencode hfits => ?_⟩
    rw [length_encodeGroup hencode hfits]
    exact Nat.zero_add _

end Writer

end Thingd.ThingDb
