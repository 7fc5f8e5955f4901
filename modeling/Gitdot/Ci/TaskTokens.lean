/-
# Which tokens drive a task

The handler of `update_task` asks for a task token and does not look at the
task it is for: the id of its principal goes unused, and the task is the one
that the path names. `TaskJwt` in turn does not ask for a task token, as it
reads a token the way `UserJwt` does. So any live token of either kind drives
any task, and any live task token passes for a user, the one whose id is the
task's (`own_token_iff`). The log server makes the comparison that is missing
here: its `ensure_auth` holds the id of the principal against the stream.

Key definitions: `updateTaskHandler`, `DrivenByOwnToken`, `NoTaskIsUser`.
Key theorems: `updateTaskHandler_ok`, `drivenByOwnToken_iff`,
`noTaskIsUser_iff`, `own_token_iff`.
-/
import Gitdot.Auth.Bearer
import Gitdot.Ci.Tasks

namespace Gitdot
namespace Ci

open Lib Auth

/-- The variants of `AppError` that the handler returns. -/
inductive AppError where
  | tokenExtraction (e : TokenExtractionError)
  | task (e : TaskError)
  deriving DecidableEq

section Handler

variable {Key : Type} (c : JsonWebToken Key) (publicKey : String) (issued : Set Issued) (now : Time)
  (plan : List Bool) (authorization : Option String) (id : Uuid) (status : String)
  (tasks : Table Task)

/-- The handler of `update_task`, of the `Authorization` header, the path's
id, the body's status and the tasks. -/
def updateTaskHandler : Except AppError Task × Table Task :=
  match Extract.TaskJwt.authenticate c publicKey now authorization with
  | .error e => (.error (.tokenExtraction e), tasks)
  | .ok _ =>
    match UpdateTaskRequest.new id status with
    | .error e => (.error (.task e), tasks)
    | .ok request =>
      let out := (updateTask request).run taskCalls plan tasks
      (out.1.mapError .task, out.2)

/-- The token that the header presents is one that was issued for the task. -/
def IssuedFor (task : Uuid) : Prop :=
  ∃ i ∈ issued, authorization = some ("Bearer " ++ i.token c) ∧ i.IsTask ∧ i.subject = task

/-- A request that the handler accepts changes the status of its task, and of
the tasks that the success of it releases, only under the task's own token. -/
def DrivenByOwnToken : Prop :=
  ∀ out tasks', updateTaskHandler c publicKey now plan authorization id status tasks =
      (.ok out, tasks') →
    ∀ t, statusOf tasks' t ≠ statusOf tasks t →
      IssuedFor c issued authorization id ∧
        (t = id ∨ statusOf tasks' id = some .success ∧ statusOf tasks t = some .blocked ∧
          statusOf tasks' t = some .pending)

/-- No authenticator of users accepts a task token. -/
def NoTaskIsUser : Prop :=
  ∀ i ∈ issued, i.IsTask → ∀ user,
    Extract.UserJwt.authenticate c publicKey now (some ("Bearer " ++ i.token c)) ≠ .ok user ∧
      ∀ userToken, Extract.User.authenticate c publicKey now userToken
        (some ("Bearer " ++ i.token c)) ≠ .ok user

variable {c publicKey issued now plan authorization id status tasks}

theorem bearer_injective {jwt jwt' : String}
    (h : some ("Bearer " ++ jwt) = some ("Bearer " ++ jwt')) : jwt = jwt' := by
  have hlists := congrArg String.toList (Option.some.inj h)
  rw [String.toList_append, String.toList_append] at hlists
  exact String.toList_inj.mp (List.append_cancel_left hlists)

/-- The requests that the handler accepts. -/
theorem updateTaskHandler_ok {out : Task} {tasks' : Table Task} :
    updateTaskHandler c publicKey now plan authorization id status tasks = (.ok out, tasks') ↔
      (∃ principal, Extract.TaskJwt.authenticate c publicKey now authorization = .ok principal) ∧
      ∃ report : TaskStatus, report.Reported ∧ status = report.text ∧ Answered plan report ∧
        ∃ old, tasks.get? id = some old ∧ out = { old with status := report } ∧
          tasks' = updated tasks old.buildId ⟨id, report⟩ := by
  unfold updateTaskHandler
  cases hauth : Extract.TaskJwt.authenticate c publicKey now authorization with
  | error e => simp
  | ok principal =>
    dsimp only
    cases hnew : UpdateTaskRequest.new id status with
    | error e =>
      refine ⟨fun h => (by cases h), ?_⟩
      rintro ⟨-, report, hreported, htext, -⟩
      have hok : UpdateTaskRequest.new id status = .ok ⟨id, report⟩ :=
        UpdateTaskRequest.new_ok.mpr ⟨rfl, hreported, htext⟩
      rw [hnew] at hok
      cases hok
    | ok request =>
      obtain ⟨rfl, hreported, rfl⟩ := UpdateTaskRequest.new_ok.mp hnew
      have hrun : ((updateTask request).run taskCalls plan tasks).1.mapError AppError.task = .ok out ∧
          ((updateTask request).run taskCalls plan tasks).2 = tasks' ↔
            (updateTask request).run taskCalls plan tasks = (.ok out, tasks') := by
        rw [mapError_eq_ok, Prod.ext_iff]
      rw [Prod.mk.injEq, hrun, updateTask_ok]
      constructor
      · rintro ⟨hanswered, hrest⟩
        exact ⟨⟨principal, rfl⟩, request.status, hreported, rfl, hanswered, hrest⟩
      · rintro ⟨-, report, -, htext, hrest⟩
        cases TaskStatus.text_injective htext
        exact hrest

/-- The requests under which a task is driven by its own token: it is not a
matter of what the handler checks, but of which token comes with a report that
changes something. -/
theorem drivenByOwnToken_iff (hsigns : Signs c publicKey issued) :
    DrivenByOwnToken c publicKey issued now plan authorization id status tasks ↔
      ∀ i ∈ issued, authorization = some ("Bearer " ++ i.token c) → i.Live c publicKey now →
        ∀ report : TaskStatus, report.Reported → status = report.text → Answered plan report →
          Moves tasks ⟨id, report⟩ → i.IsTask ∧ i.subject = id := by
  constructor
  · rintro hdriven i hi hheader hlive report hreported htext hanswered hmoves
    have ⟨old, hold, _⟩ := hmoves
    have hok := updateTaskHandler_ok.mpr ⟨⟨i.subject, Extract.authenticateJwt_issued hsigns |>.mpr
      ⟨i, hi, hheader, hlive, rfl⟩⟩, report, hreported, htext, hanswered, old, hold, rfl, rfl⟩
    obtain ⟨t, hne⟩ := (moves_iff hold).mp hmoves
    obtain ⟨⟨j, hj, hheader', htask, hsubject⟩, -⟩ := hdriven _ _ hok t hne
    have htoken : i.token c = j.token c := bearer_injective (hheader.symm.trans hheader')
    obtain ⟨key, hkey⟩ := hlive.1
    obtain ⟨hkind, hsub⟩ :=
      Issued.isTask_and_subject_of_payload (hsigns.payload_eq hkey hi hj htoken)
    exact ⟨hkind.mpr htask, hsub.trans hsubject⟩
  · intro hown out tasks' hok t hne
    obtain ⟨⟨principal, hauth⟩, report, hreported, htext, hanswered, old, hold, rfl, rfl⟩ :=
      updateTaskHandler_ok.mp hok
    obtain ⟨i, hi, hheader, hlive, -⟩ := (Extract.authenticateJwt_issued hsigns).mp hauth
    have hmoves : Moves tasks ⟨id, report⟩ := (moves_iff hold).mpr ⟨t, hne⟩
    obtain ⟨htask, hsubject⟩ := hown i hi hheader hlive report hreported htext hanswered hmoves
    refine ⟨⟨i, hi, hheader, htask, hsubject⟩, ?_⟩
    by_cases ht : t = id
    · exact .inl ht
    · obtain ⟨hsuccess, hreleased⟩ := statusOf_updated_of_ne ht hne
      have hself : statusOf (updated tasks old.buildId ⟨id, report⟩) id = some report :=
        statusOf_updated_self hold
      exact .inr ⟨hself.trans (congrArg some hsuccess), hreleased⟩

/-- A task token passes for a user as long as it lives. -/
theorem noTaskIsUser_iff (hsigns : Signs c publicKey issued) :
    NoTaskIsUser c publicKey issued now ↔ ∀ i ∈ issued, i.IsTask → ¬ i.Live c publicKey now := by
  constructor
  · intro hno i hi htask hlive
    exact (hno i hi htask i.subject).1
      ((Extract.authenticateJwt_issued hsigns).mpr ⟨i, hi, rfl, hlive, rfl⟩)
  · intro hdead i hi htask user
    have hno : Extract.UserJwt.authenticate c publicKey now
        (some ("Bearer " ++ i.token c)) ≠ .ok user := by
      intro hok
      obtain ⟨j, hj, hheader, ⟨⟨key, hkey⟩, hexp⟩, -⟩ :=
        (Extract.authenticateJwt_issued hsigns).mp hok
      have hpayload := hsigns.payload_eq hkey hi hj (bearer_injective hheader)
      refine hdead i hi htask ⟨⟨key, hkey⟩, ?_⟩
      unfold Issued.exp at hexp ⊢
      rwa [hpayload]
    refine ⟨hno, fun userToken => ?_⟩
    rw [Extract.user_authenticate_bearer]
    exact hno

/-- **Which tokens drive a task, and pass for a user.** -/
theorem own_token_iff (hsigns : Signs c publicKey issued) :
    (DrivenByOwnToken c publicKey issued now plan authorization id status tasks ↔
      ∀ i ∈ issued, authorization = some ("Bearer " ++ i.token c) → i.Live c publicKey now →
        ∀ report : TaskStatus, report.Reported → status = report.text → Answered plan report →
          Moves tasks ⟨id, report⟩ → i.IsTask ∧ i.subject = id) ∧
      (NoTaskIsUser c publicKey issued now ↔
        ∀ i ∈ issued, i.IsTask → ¬ i.Live c publicKey now) :=
  ⟨drivenByOwnToken_iff hsigns, noTaskIsUser_iff hsigns⟩

end Handler

/-! ### A user's session and two tasks -/

def plainText : Payload → String
  | .jwt claims => s!"task {claims.sub} {claims.exp}"
  | .gitdot claims => s!"session {claims.sub} {claims.exp}"

/-- A library that writes out the kind, the subject and the expiry of what it
signs, and verifies the tokens of `issued`. -/
def plainTokens (issued : List Issued) : JsonWebToken Unit where
  sign := plainText
  fromEdPem _ := .ok ()
  verify _ jwt := okOr ((issued.map Issued.payload).find? fun p => plainText p = jwt)
    "InvalidSignature"
  uuidError _ := "invalid length"

/-- The session of the user 7, and the token that the poll of the task 1
answered. -/
def sessionToken : Issued := .session (.initial 0) 7 "ann"

def firstTaskToken : Issued := .task (.initial 0) ⟨1, 3600⟩

def issuedTokens : List Issued := [sessionToken, firstTaskToken]

theorem signs_issuedTokens : Signs (plainTokens issuedTokens) "" {i | i ∈ issuedTokens} where
  verifies := by
    have hall : ∀ i : Fin 2, (plainTokens issuedTokens).verify ()
        (Issued.token (plainTokens issuedTokens) (issuedTokens.get i)) =
          .ok (issuedTokens.get i).payload := by decide +kernel
    rintro _ - i (_ | ⟨_, _ | ⟨_, ⟨⟩⟩⟩)
    · exact hall 0
    · exact hall 1
  unforgeable := by
    rintro _ - jwt payload h
    have hfind := okOr_eq_ok.mp h
    obtain ⟨i, hi, rfl⟩ := List.mem_map.mp (List.mem_of_find?_eq_some hfind)
    have htext := List.find?_some hfind
    exact ⟨i, hi, (of_decide_eq_true htext).symm⟩

/-- Two tasks of one build, both of them running. -/
def twoTasks : Table Task :=
  ⟨[⟨1, 0, 0, "", [], .running, "build", "make", none⟩,
    ⟨2, 0, 0, "", [], .running, "test", "make test", none⟩], by decide⟩

/-- A header that presents one of the issued tokens. -/
def presenting (i : Issued) : Option String := some ("Bearer " ++ i.token (plainTokens issuedTokens))

/-- Under its own token the first task is driven as it should be. -/
theorem own_token_iff_firstTask :
    DrivenByOwnToken (plainTokens issuedTokens) "" {i | i ∈ issuedTokens} 0 []
      (presenting firstTaskToken) 1 "success" twoTasks := by
  refine (own_token_iff signs_issuedTokens).1.mpr ?_
  rintro i (_ | ⟨_, _ | ⟨_, ⟨⟩⟩⟩) hheader
  · exact absurd hheader (by decide +kernel)
  · intros
    exact ⟨trivial, rfl⟩

/-- The user's session ends the second task, so does the token of the first
task, and that token passes for a user. -/
theorem not_driven_by_own_token :
    Signs (plainTokens issuedTokens) "" {i | i ∈ issuedTokens} ∧
      ¬ DrivenByOwnToken (plainTokens issuedTokens) "" {i | i ∈ issuedTokens} 0 []
        (presenting sessionToken) 2 "success" twoTasks ∧
      ¬ DrivenByOwnToken (plainTokens issuedTokens) "" {i | i ∈ issuedTokens} 0 []
        (presenting firstTaskToken) 2 "success" twoTasks ∧
      ¬ NoTaskIsUser (plainTokens issuedTokens) "" {i | i ∈ issuedTokens} 0 := by
  have hsession : sessionToken ∈ issuedTokens := .head _
  have htask : firstTaskToken ∈ issuedTokens := .tail _ (.head _)
  have hmoves : Moves twoTasks ⟨2, .success⟩ := ⟨_, rfl, .inl (by decide)⟩
  have hanswered : Answered [] .success := ⟨rfl, fun _ => rfl⟩
  have hlive : ∀ i : Issued, i.Live (plainTokens issuedTokens) "" 0 := fun _ =>
    ⟨⟨(), rfl⟩, Nat.zero_le _⟩
  refine ⟨signs_issuedTokens, fun h => ?_, fun h => ?_, fun h => ?_⟩
  · exact ((drivenByOwnToken_iff signs_issuedTokens).mp h _ hsession rfl (hlive _) .success trivial
      rfl hanswered hmoves).1
  · have hsubject := ((drivenByOwnToken_iff signs_issuedTokens).mp h _ htask rfl (hlive _) .success
      trivial rfl hanswered hmoves).2
    exact absurd hsubject (by decide)
  · exact (noTaskIsUser_iff signs_issuedTokens).mp h _ htask trivial (hlive _)

end Ci
end Gitdot
