import Xnix.SvcGraph

/-!
# The restart of services and their reports

`cascade_restart` and the commands of `user/init/svc/svc_admin.c`, and the readiness of services in
`svc_notify.c`, `svc_runtime.c` and `svc_scheduler.c`.
-/

namespace Xnix

inductive SvcState
  | pending | waiting | starting | running | stopped | failed
deriving DecidableEq

/-- The fields of `struct svc_runtime` that a restart reads or writes. -/
structure SvcRuntime where
  state : SvcState
  pid : ℤ
  ready : Bool
  manualStop : Bool
deriving DecidableEq

/-- What `cascade_restart` writes. -/
def SvcRuntime.restarted (rt : SvcRuntime) : SvcRuntime :=
  { rt with state := .pending, manualStop := false, ready := false }

/-- The services at run time, and the processes that were sent `SIGTERM`. -/
structure SvcRun where
  runtime : ℕ → SvcRuntime
  signals : List ℤ

namespace SvcRun

def Active (s : SvcRun) (i : ℕ) : Prop :=
    (s.runtime i).state = .running ∨ (s.runtime i).state = .starting

instance (s : SvcRun) : DecidablePred s.Active := fun _ => inferInstanceAs (Decidable (_ ∨ _))

/-- `sys_kill(rt->pid, SIGTERM)` when the service has a process. -/
def kill (s : SvcRun) (i : ℕ) : SvcRun :=
  if 0 < (s.runtime i).pid then { s with signals := s.signals ++ [(s.runtime i).pid] } else s

def restart (s : SvcRun) (i : ℕ) : SvcRun :=
  { s.kill i with runtime := Function.update s.runtime i (s.runtime i).restarted }

end SvcRun

/-- `cascade_restart`. The calls inside of it are for services that were active before, and `room`
bounds them. -/
def SvcManager.cascadeRestart (mgr : SvcManager) : ℕ → ℕ → SvcRun → Option SvcRun
  | 0, _, _ => none
  | room + 1, targetIdx, s =>
    (List.range mgr.count).foldlM (fun s i =>
      if (mgr.graph i).deps.any (·.targetIdx = targetIdx) ∧ s.Active i then
        mgr.cascadeRestart room i (s.restart i)
      else some s) s

/-- A message as init receives it: the sender that the kernel has stamped, the registers, and the
`svc_ready_msg` in the buffer, if it has one: magic, pid and name. -/
structure ReadyMsg where
  senderPid : ℤ
  regs : ℕ → BitVec 32
  buffer : Option (BitVec 32 × BitVec 32 × List UInt8)

/-- `SVC_MSG_READY`. -/
def svcMsgReady : BitVec 32 := 0xF001

/-- `SVC_MSG_STOP`. -/
def svcMsgStop : BitVec 32 := 0xF010

/-- `SVC_MSG_START`. -/
def svcMsgStart : BitVec 32 := 0xF011

/-- `SVC_MSG_RESTART`. -/
def svcMsgRestart : BitVec 32 := 0xF012

/-- `SVC_MSG_LIST`. -/
def svcMsgList : BitVec 32 := 0xF014

/-- The string in the 16 bytes of a name, of which the last is set to 0. -/
def readyName (bytes : List UInt8) : CString := (bytes.take 15).takeWhile (· ≠ 0)

/-- The name in the registers from `first` on: `extract_name` from 1 on. -/
def ReadyMsg.name (msg : ReadyMsg) (first : ℕ) : CString :=
  readyName ((List.range 16).map fun k =>
    .ofBitVec ((msg.regs (first + k / 4)).extractLsb' (8 * (k % 4)) 8))

/-- The pid and the name that a message claims. -/
def ReadyMsg.claim (msg : ReadyMsg) : Option (ℤ × CString) :=
  if msg.regs 0 ≠ svcMsgReady then none
  else if msg.regs 1 ≠ 0 then some ((msg.regs 1).toInt, msg.name 2)
  else match msg.buffer with
    | none => none
    | some (magic, pid, name) =>
      if magic = svcMsgReady then some (pid.toInt, readyName name) else none

/-- The fields that reports and mounts read or write. -/
structure SvcReadiness extends SvcRuntime where
  reportedReady : Bool
  mounted : Bool
deriving DecidableEq

/-- What init knows of a service's readiness. -/
def SvcReadiness.readiness (r : SvcReadiness) : Bool × Bool := (r.reportedReady, r.ready)

/-- What init does with its services: it takes a message from its endpoint, tries to mount, starts a
service (`pid` is what the start returned), reaps a process, or finds that the time for a report is
over. -/
inductive ReadyAction
  | receive (msg : ReadyMsg)
  | tryMount (i : ℕ) (ok : Bool)
  | start (i : ℕ) (pid : ℤ)
  | exit (pid : ℤ) (respawn : Bool)
  | timeout (i : ℕ) (depended : Bool)

namespace SvcManager

variable (mgr : SvcManager) (mount : ℕ → CString) (rt : ℕ → SvcReadiness)

/-- `svc_handle_ready_notification`. -/
def handleReadyNotification (msg : ReadyMsg) : ℕ → SvcReadiness :=
  match msg.claim.bind fun c => (mgr.findByName c.2).map (c.1, ·) with
  | none => rt
  | some (pid, i) =>
    if (rt i).state = .running ∧ (rt i).pid = pid then
      Function.update rt i
        { rt i with reportedReady := true, ready := (rt i).ready || mount i = [] }
    else rt

/-- `handle_stop`. -/
def handleStop (i : ℕ) : ℕ → SvcReadiness :=
  if (rt i).state = .stopped ∨ (rt i).state = .failed then rt
  else Function.update rt i { rt i with manualStop := true }

/-- `handle_start`. -/
def handleStart (i : ℕ) : ℕ → SvcReadiness :=
  if (rt i).state = .running then rt
  else Function.update rt i { rt i with manualStop := false, state := .pending }

/-- `handle_restart`, and the signals and the cascade that follow the reply. -/
def handleRestart (i : ℕ) : ℕ → SvcReadiness :=
  match mgr.cascadeRestart (mgr.count + 1) i
    (SvcRun.restart ⟨fun j => (rt j).toSvcRuntime, []⟩ i) with
  | none => rt
  | some s => fun j => { rt j with toSvcRuntime := s.runtime j }

/-- `svc_admin_dispatch`: `none` for a message that is no command. The other two commands only
read. -/
def adminDispatch (msg : ReadyMsg) : Option (ℕ → SvcReadiness) :=
  if msg.regs 0 < svcMsgStop ∨ svcMsgList < msg.regs 0 then none
  else some <| match mgr.findByName (msg.name 1) with
    | none => rt
    | some i =>
      if msg.regs 0 = svcMsgStop then handleStop rt i
      else if msg.regs 0 = svcMsgStart then handleStart rt i
      else if msg.regs 0 = svcMsgRestart then mgr.handleRestart rt i
      else rt

/-- `svc_try_mount_service`; `ok` tells whether there is an endpoint, which answers and can be
mounted. -/
def tryMountService (i : ℕ) (ok : Bool) : ℕ → SvcReadiness :=
  if mount i = [] ∨ (rt i).state ≠ .running ∨ (rt i).reportedReady = false ∨ (rt i).mounted then rt
  else Function.update rt i
    (if ok then { rt i with mounted := true, ready := true } else { rt i with state := .failed })

/-- The end of `svc_start_service`. -/
def startService (i : ℕ) (pid : ℤ) : ℕ → SvcReadiness :=
  Function.update rt i
    (if pid < 0 then { rt i with state := .failed }
    else { rt i with
      state := .running, pid, reportedReady := false, mounted := false, ready := false })

/-- `svc_handle_exit`. -/
def handleExit (pid : ℤ) (respawn : Bool) : ℕ → SvcReadiness :=
  match (List.range mgr.count).find? fun i => (rt i).pid = pid with
  | none => rt
  | some i =>
    let state := if respawn ∧ ¬(rt i).manualStop then .pending else .stopped
    Function.update rt i
      { rt i with state, pid := -1, reportedReady := false, mounted := false, ready := false }

/-- A round of `svc_check_ready_timeouts` for a service whose time is over, and whose tries are when
others wait for it. -/
def readyTimeout (i : ℕ) (depended : Bool) : ℕ → SvcReadiness :=
  if (rt i).state ≠ .running ∨ (rt i).ready then rt
  else Function.update rt i (if depended then { rt i with state := .failed }
    else { rt i with ready := true })

/-- A message goes to `svc_admin_dispatch` first, as in `drain_ready_notifications`. -/
def readyStep : ReadyAction → ℕ → SvcReadiness
  | .receive msg => (mgr.adminDispatch rt msg).getD (mgr.handleReadyNotification mount rt msg)
  | .tryMount i ok => tryMountService mount rt i ok
  | .start i pid => startService rt i pid
  | .exit pid respawn => mgr.handleExit rt pid respawn
  | .timeout i depended => readyTimeout rt i depended

/-- The services after init has done `as`. -/
def readyRun (as : List ReadyAction) : ℕ → SvcReadiness :=
  as.foldl (mgr.readyStep mount) fun _ => ⟨⟨.pending, 0, false, false⟩, false, false⟩

end SvcManager

end Xnix
