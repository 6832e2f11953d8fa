import Exemplar.Proofs.Workspace.History

/-!
# Calls that change a workspace in place

A workspace is written as a value, and a refused call gives none back. Here
the calls are procedures on one workspace that is changed as they run, so that
a refusal leaves whatever has been written by then. Each procedure looks at all
it is given before it writes (`perform_add`, `perform_link`), and so a refusal
leaves everything (`perform_of_error`).

With that, units and library are `Consistent` after any calls. The two sides of
the last part are guarded by different calls: adding compares new units with
the library, linking compares a new library with the units.
-/

namespace Exemplar

/-- Something done to a workspace, which may stop with a refusal. What has been
written before that stays written. -/
abbrev Procedure := ExceptT WorkspaceError (StateM Workspace)

namespace Procedure

/-- Stop if the workspace, as it is now, rejects `x`. -/
def check {α : Type} (rejection? : Workspace → α → Option WorkspaceError)
    (x : α) : Procedure Unit := do
  match rejection? (← get) x with
  | some error => throw error
  | none => pure ()

/-- Look at all units, then put one after the other. -/
def add (units : List SourceUnit) (putOff : Bool) : Procedure Unit := do
  units.forM (check Workspace.rejection?)
  units.forM fun unit => modify fun ws => ws.put putOff unit

/-- Look at all origins, then write the library. -/
def link (library : Library) : Procedure Unit := do
  library.origins.forM (check Workspace.linkRejection?)
  modify fun ws => { ws with library := library }

/-- Build, and leave the parses that this has taken. -/
def build : Procedure Unit := modify fun ws => ws.build.2

def ofCall : Call → Procedure Unit
  | .add units putOff => add units putOff
  | .link library => link library
  | .build => build

/-! ## Running -/

theorem run_bind {α β : Type} (p : Procedure α) (f : α → Procedure β)
    (ws : Workspace) :
    (p >>= f) ws = match p ws with
      | (.ok a, ws') => f a ws'
      | (.error e, ws') => (Except.error e, ws') := by
  change (let (r, ws') := p ws; ExceptT.bindCont f r ws') = _
  rcases p ws with ⟨e | a, ws'⟩ <;> rfl

theorem run_check {α : Type}
    (rejection? : Workspace → α → Option WorkspaceError) (x : α)
    (ws : Workspace) :
    check rejection? x ws = (match rejection? ws x with
      | some error => .error error
      | none => .ok (), ws) := by
  change (match rejection? ws x with
    | some error => throw error
    | none => pure () : Procedure Unit) ws = _
  cases rejection? ws x <;> rfl

/-- Checks write nothing: all of them see the same workspace. -/
theorem run_forM_check {α : Type}
    (rejection? : Workspace → α → Option WorkspaceError) (ws : Workspace)
    (xs : List α) :
    xs.forM (check rejection?) ws = (match xs.findSome? (rejection? ws) with
      | some error => .error error
      | none => .ok (), ws) := by
  induction xs with
  | nil => rfl
  | cons x xs ih =>
      change (check rejection? x >>= fun _ => xs.forM (check rejection?)) ws = _
      rw [run_bind, run_check, List.findSome?_cons]
      cases rejection? ws x with
      | some error => rfl
      | none => exact ih

theorem run_forM_modify {α : Type} (f : Workspace → α → Workspace)
    (xs : List α) :
    ∀ ws, (xs.forM fun x => modify fun ws => f ws x : Procedure Unit) ws
      = (.ok (), xs.foldl f ws) := by
  induction xs with
  | nil => exact fun _ => rfl
  | cons x xs ih => exact fun ws => ih (f ws x)

end Procedure

namespace Workspace

/-- What a call answers, and the workspace as the call leaves it. -/
def perform (ws : Workspace) (c : Call) :
    Except WorkspaceError Unit × Workspace :=
  Procedure.ofCall c ws

theorem perform_add (ws : Workspace) (units : List SourceUnit) (putOff : Bool) :
    ws.perform (.add units putOff) = match ws.add units putOff with
      | .ok ws' => (.ok (), ws')
      | .error e => (.error e, ws) := by
  change Procedure.add units putOff ws = _
  rw [Procedure.add, Procedure.run_bind, Procedure.run_forM_check,
    Workspace.add]
  cases units.findSome? ws.rejection? with
  | some error => rfl
  | none =>
      exact Procedure.run_forM_modify (fun ws unit => ws.put putOff unit)
        units ws

theorem perform_link (ws : Workspace) (library : Library) :
    ws.perform (.link library) = match ws.link library with
      | .ok ws' => (.ok (), ws')
      | .error e => (.error e, ws) := by
  change Procedure.link library ws = _
  rw [Procedure.link, Procedure.run_bind, Procedure.run_forM_check,
    Workspace.link]
  cases library.origins.findSome? ws.linkRejection? with
  | some error => rfl
  | none => rfl

/-- Histories go on from where a procedure leaves the workspace. -/
theorem snd_perform (ws : Workspace) (c : Call) :
    (ws.perform c).2 = ws.call c := by
  cases c with
  | add units putOff =>
      rw [perform_add, call]
      cases ws.add units putOff <;> rfl
  | link library =>
      rw [perform_link, call]
      cases ws.link library <;> rfl
  | build => rfl

theorem perform_of_error {ws : Workspace} {c : Call} {e : WorkspaceError}
    (h : (ws.perform c).1 = .error e) : (ws.perform c).2 = ws := by
  cases c with
  | add units putOff =>
      rw [perform_add] at h ⊢
      cases hadd : ws.add units putOff with
      | error _ => rfl
      | ok _ => rw [hadd] at h; cases h
  | link library =>
      rw [perform_link] at h ⊢
      cases hlink : ws.link library with
      | error _ => rfl
      | ok _ => rw [hlink] at h; cases h
  | build => cases h

/-! ## Consistency -/

/-- Units differ in their origins, they are sources, the library holds
references, and no name is on both sides. -/
structure Consistent (ws : Workspace) : Prop where
  distinct : (ws.units.map SourceUnit.origin).Nodup
  sources : ∀ u ∈ ws.units, u.origin.isReference = false
  references : ∀ o ∈ ws.library.origins, o.isReference = true
  apart : ∀ u ∈ ws.units, ∀ o ∈ ws.library.origins, o.name ≠ u.origin.name

theorem Follows.consistent {ws : Workspace} {l : Ledger} (h : ws.Follows l)
    (hl : l.Apart) :
    ws.Consistent := by
  -- a unit of the workspace has the origin of one that was added
  have hadded : ∀ u ∈ ws.units, ∃ v ∈ l.added, v.origin = u.origin := by
    intro u hu
    rw [h.units] at hu
    exact List.mem_map.mp (mem_origins_settled.mp (List.mem_map_of_mem hu))
  refine ⟨?_, fun u hu => ?_, ?_, fun u hu => ?_⟩
  · rw [h.units]
    exact nodup_origins_settled l.added
  · obtain ⟨v, hv, heq⟩ := hadded u hu
    rw [← heq]
    exact hl.units v hv
  · rw [h.library]
    exact hl.library
  · obtain ⟨v, hv, heq⟩ := hadded u hu
    rw [h.library, ← heq]
    exact hl.names v hv

/-- **Refusals change nothing, and nothing else breaks the order.** After any
calls, accepted or refused, a workspace is consistent; the next call leaves it
as the history goes on, and if that call is refused, exactly as it was: units,
parses, library and count. -/
theorem after_consistent (calls : List Call) :
    (after calls).Consistent
      ∧ ∀ c, ((after calls).perform c).2 = after (calls ++ [c])
        ∧ ∀ e, ((after calls).perform c).1 = .error e →
        after (calls ++ [c]) = after calls := by
  refine ⟨(follows_after calls).consistent (Ledger.apart_after calls),
    fun c => ?_⟩
  have hnext : ((after calls).perform c).2 = after (calls ++ [c]) := by
    rw [snd_perform, after, after, List.foldl_append]
    rfl
  refine ⟨hnext, fun e he => ?_⟩
  rw [← hnext]
  exact perform_of_error he

/-- The second of two units has the name of a reference: neither is added. -/
theorem after_consistent_refused :
    let calls := [Call.link (.single (.reference "lib.vl") []),
      .add [⟨.primary "a.vl", ""⟩] true]
    let c := Call.add [⟨.primary "b.vl", ""⟩, ⟨.synthetic "lib.vl", ""⟩] false
    ((after calls).perform c).1 = .error (.nameTaken (.reference "lib.vl"))
      ∧ after (calls ++ [c]) = after calls ∧ (after calls).units
        = [⟨.primary "a.vl", ""⟩] := by
  intro calls c
  have herror : ((after calls).perform c).1
      = .error (.nameTaken (.reference "lib.vl")) := by
    rfl
  exact ⟨herror, ((after_consistent calls).2 c).2 _ herror, by decide⟩

end Workspace

end Exemplar
