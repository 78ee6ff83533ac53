import PomaiQueue.Lib.Purge
import PomaiQueue.Locality
/-!
# Groups do not see each other

Requests for any number of queues and groups, in any order, with failing system calls
and kills. `groups_independent`: what a group is answered is what it would be answered
if nothing else had been asked for, and it is left as it would be then. Of a kill
during a request for another group it notices that the engine was started again.

A queue is shared by its groups: what is produced is seen by all of them. No name has a NUL
byte, and the data directory of a restart is not inside a queue's directory of another one. A
request that throws ends the process, as a kill does.
-/

namespace PomaiQueue.Engine

open Wire Posix Assoc Storage

def Event.asks : Event → Request
  | .request _ r | .kill _ r _ _ => r

/-- The names in the request are one part of a path each. -/
def Event.Named (x : Event) : Prop := x.asks.Named

instance (x : Event) : Decidable x.Named := inferInstanceAs (Decidable x.asks.Named)

/-- What group `g` of queue `q` notices. -/
def seen (q : Path) (g : CString) : Event → Option Event
  | .request env r => if Concerns q g r then some (.request env r) else none
  | .kill env r calls options => some (if Concerns q g r then .kill env r calls options else restart options)

/-- Two engines that look the same to the group. -/
structure Matches (q : Path) (g : CString) (e e' : QueueEngine) : Prop where
  same : SameFor q g e e'
  left : Placed e
  right : Placed e'

section steps

variable {q : Path} {g : CString} {e e' : QueueEngine}

theorem DoesSame.files {env : Env} {r : Request} {calls : List Call} (h : SameFor q g e e') (hd : DoesSame env q g r e e' calls)
    (k : Nat) : ∀ p, Owned q g p → (e.fs.after (calls.take k)).disk p = (e'.fs.after (calls.take k)).disk p := by
  rw [Fs.disk_after, Fs.disk_after]
  exact foldl_exec_congr (hd.within.sublist (List.take_sublist k calls)) h.files

/-- A request for the group. -/
theorem Matches.request (h : Matches q g e e') (env : Env) {r : Request} (hr : Concerns q g r) :
    (perform env e r).1 = (perform env e' r).1 ∧ Matches q g (perform env e r).2 (perform env e' r).2 := by
  obtain ⟨calls, hd⟩ := perform_local h.same h.left env hr
  refine ⟨hd.answer, ⟨?_, hd.part, ?_⟩, h.left.perform r, h.right.perform r⟩
  · rw [perform_options, perform_options, h.same.options]
  · have hfiles := hd.files h.same calls.length
    rwa [List.take_length, ← hd.left, ← hd.right] at hfiles

/-- A request for somebody else. -/
theorem Matches.other (h : Matches q g e e') (hq : Plain q) (hg : 47 ∉ g.1) (env : Env) {r : Request} (hn : r.Named)
    (hr : ¬ Concerns q g r) : Matches q g (perform env e r).2 e' := by
  obtain ⟨calls, hafter, hwithin, hpart⟩ := perform_other h.left hq hg env hn hr
  refine ⟨⟨?_, hpart.trans h.same.part, fun p hp => ?_⟩, h.left.perform r, h.right⟩
  · rw [perform_options, h.same.options]
  · rw [hafter, Fs.disk_after, foldl_spares (hwithin.spares (not_not.2 hp)), h.same.files p hp]

/-- New engines on files that look the same. -/
theorem matches_restart (options : EngineOptions) {fs fs' : Fs} (h : ∀ p, Owned q g p → fs.disk p = fs'.disk p) :
    Matches q g { options, fs } { options, fs := fs' } where
  same := ⟨rfl, rfl, h⟩
  left := fun _ _ hl => by cases hl
  right := fun _ _ hl => by cases hl

theorem serve_kill {env : Env} {r : Request} {calls : List Call} (h : (perform env e r).2.fs = e.fs.after calls) (k : Nat)
    (options : EngineOptions) : serve e (.kill env r k options) = (none, { options, fs := e.fs.after (calls.take k) }) := by
  simp only [serve, h, Fs.cut_after]

/-- A kill during a request for the group. -/
theorem Matches.kill (h : Matches q g e e') (env : Env) {r : Request} (hr : Concerns q g r) (k : Nat) (options : EngineOptions) :
    (serve e (.kill env r k options)).1 = (serve e' (.kill env r k options)).1 ∧
      Matches q g (serve e (.kill env r k options)).2 (serve e' (.kill env r k options)).2 := by
  obtain ⟨calls, hd⟩ := perform_local h.same h.left env hr
  rw [serve_kill hd.left, serve_kill hd.right]
  exact ⟨rfl, matches_restart options (hd.files h.same k)⟩

/-- A kill during a request for somebody else. -/
theorem Matches.restart (h : Matches q g e e') (hq : Plain q) (hg : 47 ∉ g.1) (env : Env) {r : Request} (hn : r.Named)
    (hr : ¬ Concerns q g r) (k : Nat) (options : EngineOptions) :
    Matches q g (serve e (.kill env r k options)).2 (serve e' (Engine.restart options)).2 := by
  obtain ⟨calls, hafter, hwithin, -⟩ := perform_other h.left hq hg env hn hr
  rw [serve_kill hafter, serve_restart]
  apply matches_restart
  intro p hp
  have hspares := (hwithin.sublist (List.take_sublist k calls)).spares (not_not.2 hp)
  rw [Fs.disk_after, foldl_spares hspares, h.same.files p hp]

end steps

theorem serve_unwinds {q : Path} {g : CString} (hq : Plain q) (hg : 47 ∉ g.1) :
    Purge.Unwinds serve (seen q g) Event.Named (Matches q g) where
  hidden := by
    intro e e' x hn hsee h
    cases x with
    | request env r =>
      by_cases hr : Concerns q g r
      · rw [seen, if_pos hr] at hsee
        cases hsee
      · exact h.other hq hg env hn hr
    | kill env r k options => cases hsee
  shown := by
    intro e e' x y hn hsee h
    cases x with
    | request env r =>
      by_cases hr : Concerns q g r
      · rw [seen, if_pos hr, Option.some.injEq] at hsee
        obtain ⟨hans, hnext⟩ := h.request env hr
        rw [← hsee]
        exact ⟨congrArg some hans, hnext⟩
      · rw [seen, if_neg hr] at hsee
        cases hsee
    | kill env r k options =>
      rw [seen, Option.some.injEq] at hsee
      rw [← hsee]
      by_cases hr : Concerns q g r
      · rw [if_pos hr]
        exact h.kill env hr k options
      · rw [if_neg hr]
        exact ⟨rfl, h.restart hq hg env hn hr k options⟩

theorem matches_engineOn (q : Path) (g : CString) (options : EngineOptions) (base : Disk) :
    Matches q g (engineOn options base) (engineOn options base) := matches_restart options fun _ _ => rfl

/-- In every run a group gets the answers, and is left with the messages and files, that
it would get and be left with if requests for other queues and other groups had not
been made. -/
theorem groups_independent (options : EngineOptions) (base : Disk) (events : List Event) (hn : ∀ x ∈ events, x.Named)
    (q : Path) (hq : Plain q) (g : CString) (hg : 47 ∉ g.1) :
    Purge.answers serve (seen q g) (engineOn options base) events =
        Purge.answers serve some (engineOn options base) (events.filterMap (seen q g)) ∧
      SameFor q g (Purge.run serve (engineOn options base) events)
        (Purge.run serve (engineOn options base) (events.filterMap (seen q g))) := by
  obtain ⟨hans, hfinal⟩ := (serve_unwinds hq hg).run (matches_engineOn q g options base) hn
  exact ⟨hans, hfinal.same⟩

def otherGroup : CString := ⟨ascii "h", by decide⟩

/-- Another group is served, and killed at it, before the group asks. -/
def sharedQueue : List Event :=
  [.request {} (.op (.createQueue someQueue)), .request {} (.op (.produce someQueue someMessage)),
    .request {} (.op (.group someQueue otherGroup .consume)), .kill {} (.op (.group someQueue otherGroup (.ack ⟨1, 2⟩))) 1 {},
    .request {} (.op (.createQueue someQueue)), .request {} (.inspectMessage someQueue someGroup ⟨1, 2⟩)]

theorem groups_independent_shared :
    Purge.answers serve (seen someQueue someGroup) (engineOn {} fun _ => none) sharedQueue =
      Purge.answers serve some (engineOn {} fun _ => none)
        [.request {} (.op (.createQueue someQueue)), .request {} (.op (.produce someQueue someMessage)), restart {},
          .request {} (.op (.createQueue someQueue)), .request {} (.inspectMessage someQueue someGroup ⟨1, 2⟩)] :=
  (groups_independent {} (fun _ => none) sharedQueue (by decide) someQueue (by decide) someGroup (by decide)).1

end PomaiQueue.Engine
