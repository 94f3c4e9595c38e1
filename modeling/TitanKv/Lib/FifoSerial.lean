import TitanKv.Lib.Deadlock
import TitanKv.Lib.Linear
import TitanKv.Lib.SentUnder

/-! # Tasks that wait in line are serial

Fair locks and a bounded channel only delay the clients of `TwoPhase.Sys`: what waits in
a line or before a full channel takes no step there, and every other operation is a step
of a client. So tasks whose programs are two-phase and climb come to an end, and then
the cells and all answers are those of their calls one at a time. -/

namespace TwoPhase
open Runs

variable {n : Nat} {ι σ μ κ α : Type}

/-- The calls of one client, in the order they come. -/
def ofClient (es : List (Executed n κ α)) (t : Fin n) : List (Executed n κ α) :=
  es.filter fun e => e.client = t

section OfClient
variable {es new : List (Executed n κ α)} {t u : Fin n}

theorem ofClient_append_self (h : ∀ e ∈ new, e.client = t) :
    ofClient (es ++ new) t = ofClient es t ++ new := by
  rw [ofClient, List.filter_append, List.filter_eq_self.mpr fun e he => decide_eq_true (h e he)]
  rfl

theorem ofClient_append_of_ne (h : ∀ e ∈ new, e.client = t) (hne : u ≠ t) :
    ofClient (es ++ new) u = ofClient es u := by
  have hnone : new.filter (fun e => e.client = u) = [] :=
    List.filter_eq_nil_iff.mpr fun e he heq => hne ((of_decide_eq_true heq).symm.trans (h e he))
  rw [ofClient, List.filter_append, hnone, List.append_nil]
  rfl

end OfClient

/-- The reply of a call that has committed and not ended. -/
def Client.owed (x : Client ι σ μ κ α) : List α :=
  match x.phase with
  | .closing _ p => p.reply?.toList
  | _ => []

/-- Each client's calls commit in the order it makes them, and end in that order. -/
structure Sys.InTurn (calls : Fin n → List κ) (s : Sys n ι σ μ κ α) : Prop where
  calls : ∀ t, (ofClient s.order t).map (·.call) ++ (s.clients t).calls = calls t
  replies : ∀ t, (ofClient s.executed t).map (·.reply) ++ (s.clients t).owed =
    (ofClient s.order t).map (·.reply)

section InTurn
variable {calls : Fin n → List κ} {mem₀ : ι → σ} {s s' : Sys n ι σ μ κ α} {t : Fin n} {c : κ}

theorem Sys.inTurn_init : (Sys.init mem₀ calls : Sys n ι σ μ κ α).InTurn calls :=
  ⟨fun _ => rfl, fun _ => rfl⟩

/-- One client's record changes, and calls of its own commit and end. -/
theorem Sys.InTurn.set (h : s.InTurn calls) {x : Client ι σ μ κ α}
    {new ended : List (Executed n κ α)}
    (horder : s'.order = s.order ++ new) (hexecuted : s'.executed = s.executed ++ ended)
    (hclients : s'.clients = (s.setClient t x).clients) (hnew : ∀ e ∈ new, e.client = t)
    (hended : ∀ e ∈ ended, e.client = t)
    (hcalls : new.map (·.call) ++ x.calls = (s.clients t).calls)
    (hreplies : ended.map (·.reply) ++ x.owed = (s.clients t).owed ++ new.map (·.reply)) :
    s'.InTurn calls := by
  refine ⟨fun u => ?_, fun u => ?_⟩
  · rw [horder, hclients]
    by_cases hu : u = t
    · subst hu
      rw [Sys.setClient_self, ofClient_append_self hnew, List.map_append, List.append_assoc, hcalls]
      exact h.calls u
    · rw [Sys.setClient_of_ne s _ hu, ofClient_append_of_ne hnew hu]
      exact h.calls u
  · rw [horder, hexecuted, hclients]
    by_cases hu : u = t
    · subst hu
      rw [Sys.setClient_self, ofClient_append_self hnew, ofClient_append_self hended,
        List.map_append, List.map_append,
        List.append_assoc, hreplies, ← List.append_assoc, h.replies u]
    · rw [Sys.setClient_of_ne s _ hu, ofClient_append_of_ne hnew hu,
        ofClient_append_of_ne hended hu]
      exact h.replies u

/-- Nothing commits and nothing ends. -/
theorem Sys.InTurn.rephase (h : s.InTurn calls) {x : Client ι σ μ κ α} (horder : s'.order = s.order)
    (hexecuted : s'.executed = s.executed) (hclients : s'.clients = (s.setClient t x).clients)
    (hcalls : x.calls = (s.clients t).calls) (howed : x.owed = (s.clients t).owed) :
    s'.InTurn calls :=
  h.set (horder.trans (List.append_nil _).symm) (hexecuted.trans (List.append_nil _).symm) hclients
    (List.forall_mem_nil _) (List.forall_mem_nil _) hcalls (howed.trans (List.append_nil _).symm)

variable [DecidableEq ι]

theorem Sys.executed_done {b : α} (hs : s.close t c (.done b) = some s') :
    s'.executed = s.executed ++ [⟨s.callOf t c, b⟩] := by
  obtain rfl := Option.some.inj hs
  simp [Sys.executed]

theorem Sys.InTurn.close (h : s.InTurn calls) {p : Prog ι σ μ α}
    (hp : (s.clients t).phase = .closing c p) (hs : s.close t c p = some s') : s'.InTurn calls := by
  have hcalls : (s.clients t).calls = (s.clients t).todo := by rw [Client.calls, hp]
  have howed : (s.clients t).owed = p.reply?.toList := by rw [Client.owed, hp]
  cases p with
  | done b =>
    have hexecuted := Sys.executed_done hs
    obtain rfl := Option.some.inj hs
    refine h.set (List.append_nil _).symm hexecuted rfl (List.forall_mem_nil _)
      (fun e he => ?_) hcalls.symm (howed ▸ rfl)
    rw [List.mem_singleton.mp he]
    rfl
  | unlock i k | send x k =>
    obtain rfl := Option.some.inj hs
    exact h.rephase rfl rfl rfl hcalls.symm howed.symm
  | hang | lock _ _ _ | read _ _ | update _ _ _ => cases hs

theorem Sys.InTurn.commit (h : s.InTurn calls) {p : Prog ι σ μ α}
    (hp : (s.clients t).phase = .active c p)
    (htail : Tail (s.clients t).held p) (hs : (s.commit t c p).close t c p = some s') :
    s'.InTurn calls := by
  have hcalls : (s.clients t).calls = c :: (s.clients t).todo := by rw [Client.calls, hp]
  have howed : (s.clients t).owed = [] := by rw [Client.owed, hp]
  obtain ⟨a, ha, -⟩ := htail.run
  have horder : (s.commit t c p).order = s.order ++ [⟨s.callOf t c, a⟩] := by
    rw [Sys.commit, ha]; rfl
  have hreply : Client.owed { s.clients t with phase := .closing c p } = [a] :=
    congrArg Option.toList ha
  have hcommit : (s.commit t c p).InTurn calls := by
    refine h.set horder (List.append_nil _).symm rfl (fun e he => ?_)
      (List.forall_mem_nil _) hcalls.symm ?_
    · rw [List.mem_singleton.mp he]
      rfl
    · rw [hreply, howed]
      rfl
  exact hcommit.close (congrArg Client.phase (Sys.setClient_self s t _)) hs

theorem Sys.InTurn.step {prog : κ → Prog ι σ μ α} {abs : ι → σ} (h : s.InTurn calls)
    (hserial : SerialInv prog mem₀ s abs) (hs : s.step prog t = some s') : s'.InTurn calls := by
  unfold Sys.step at hs
  have hc := hserial.client t
  unfold ClientInv at hc
  cases hp : (s.clients t).phase with
  | idle =>
    rw [hp] at hs
    have howed : (s.clients t).owed = [] := by rw [Client.owed, hp]
    cases htodo : (s.clients t).todo with
    | nil =>
      rw [htodo] at hs
      cases hs
    | cons d ds =>
      rw [htodo] at hs
      obtain rfl := Option.some.inj hs
      have hcalls : (s.clients t).calls = d :: ds := by rw [Client.calls, hp, htodo]
      exact h.rephase rfl (by simp [Sys.executed]) rfl hcalls.symm howed.symm
  | closing d p =>
    rw [hp] at hs
    exact h.close hp hs
  | active d p =>
    rw [hp] at hs hc
    have hcalls : (s.clients t).calls = d :: (s.clients t).todo := by rw [Client.calls, hp]
    have howed : (s.clients t).owed = [] := by rw [Client.owed, hp]
    cases p with
    | hang =>
      obtain rfl := Option.some.inj hs
      exact h
    | lock i m k =>
      dsimp only at hs
      split at hs
      · obtain rfl := Option.some.inj hs
        exact h.rephase rfl rfl rfl hcalls.symm howed.symm
      · cases hs
    | read i k | update i f k =>
      obtain rfl := Option.some.inj hs
      exact h.rephase rfl rfl rfl hcalls.symm howed.symm
    | done b | unlock i k | send x k => exact h.commit hp hc.1 hs

theorem Sys.close_order {p : Prog ι σ μ α} (hs : s.close t c p = some s') : s'.order = s.order := by
  cases p with
  | done b | unlock i k | send x k =>
    obtain rfl := Option.some.inj hs
    rfl
  | hang | lock _ _ _ | read _ _ | update _ _ _ => cases hs

/-- What has committed stays in its place. -/
theorem Sys.step_order {prog : κ → Prog ι σ μ α} (hs : s.step prog t = some s') :
    s.order <+: s'.order := by
  cases Sys.step_move hs with
  | start | access => exact List.prefix_rfl
  | commit _ _ hclose =>
    rw [Sys.close_order hclose]
    exact List.prefix_append _ _
  | close _ hclose => rw [Sys.close_order hclose]

theorem inTurn_reachable {prog : κ → Prog ι σ μ α} (hdisc : ∀ d, Disciplined [] (prog d))
    (hreach : Reachable (Sys.step prog) anyStep (Sys.init mem₀ calls) s) : s.InTurn calls := by
  induction hreach with
  | init => exact Sys.inTurn_init
  | step hs _ hstep ih =>
    obtain ⟨⟨abs, hserial⟩, -⟩ := soundInv_reachable hdisc hs
    exact ih.step hserial hstep

end InTurn

end TwoPhase

namespace Fifo
open TwoPhase Runs

variable {n : Nat} {ι σ μ κ α : Type} {calls : Fin n → List κ} {mem : ι → σ}
  {s s' : Hall n ι σ μ κ α}
  {u u' : Sys n ι σ μ κ α} {t : Fin n} {c : κ}

/-- The client as a task. -/
def shown (u : Sys n ι σ μ κ α) (t : Fin n) : Task ι σ μ κ α where
  todo := (u.clients t).todo
  held := (u.clients t).held
  current := (u.clients t).phase.program?
  answers := (ofClient u.executed t).map (·.reply)

/-- The hall is where the clients are, with what they sent received or in the channel. -/
structure Hall.Mirrors (s : Hall n ι σ μ κ α) (u : Sys n ι σ μ κ α) : Prop where
  mem : s.mem = u.mem
  tasks : s.tasks = shown u
  sent : s.intake ≠ .failed → s.received ++ s.channel = u.sent

theorem Hall.mirrors_init : (Hall.init mem calls : Hall n ι σ μ κ α).Mirrors (Sys.init mem calls) :=
  ⟨rfl, rfl, fun _ => rfl⟩

theorem shown_set {x : Client ι σ μ κ α} {ended : List (Executed n κ α)}
    (hclients : u'.clients = (u.setClient t x).clients)
    (hexecuted : u'.executed = u.executed ++ ended) (hended : ∀ e ∈ ended, e.client = t) :
    shown u' = Function.update (shown u) t
      ⟨x.todo, x.held, x.phase.program?, (shown u t).answers ++ ended.map (·.reply)⟩ := by
  funext v
  by_cases hv : v = t
  · subst hv
    rw [Function.update_self, shown, hclients, Sys.setClient_self, hexecuted,
      ofClient_append_self hended, List.map_append]
    rfl
  · rw [Function.update_of_ne hv, shown, hclients, Sys.setClient_of_ne u _ hv, hexecuted,
      ofClient_append_of_ne hended hv]
    rfl

/-- One task moves as its client does, and ends the calls it ends. -/
theorem Hall.Mirrors.set (h : s.Mirrors u) {x : Client ι σ μ κ α} {ended : List (Executed n κ α)}
    (htasks : s'.tasks = Function.update s.tasks t
      ⟨x.todo, x.held, x.phase.program?, (s.tasks t).answers ++ ended.map (·.reply)⟩)
    (hclients : u'.clients = (u.setClient t x).clients)
    (hexecuted : u'.executed = u.executed ++ ended)
    (hended : ∀ e ∈ ended, e.client = t) (hmem : s'.mem = u'.mem)
    (hsent : s'.intake ≠ .failed → s'.received ++ s'.channel = u'.sent) : s'.Mirrors u' :=
  ⟨hmem, by rw [htasks, shown_set hclients hexecuted hended, h.tasks], hsent⟩

/-- The case of no call that ends. -/
theorem Hall.Mirrors.rephase (h : s.Mirrors u) {x : Client ι σ μ κ α}
    (htasks : s'.tasks = Function.update s.tasks t ⟨x.todo, x.held, x.phase.program?,
      (s.tasks t).answers⟩)
    (hclients : u'.clients = (u.setClient t x).clients) (hexecuted : u'.executed = u.executed)
    (hmem : s'.mem = u'.mem)
    (hsent : s'.intake ≠ .failed → s'.received ++ s'.channel = u'.sent) : s'.Mirrors u' :=
  h.set (by rw [List.map_nil, List.append_nil]; exact htasks) hclients
    (hexecuted.trans (List.append_nil _).symm)
    (List.forall_mem_nil _) hmem hsent

section Simulation
variable [DecidableEq ι] {prog : κ → Prog ι σ μ α} {capacity : Nat} {abs : ι → σ}

/-- A call past its last access. -/
theorem Hall.Mirrors.close (h : s.Mirrors u) {p : Prog ι σ μ α}
    (hp : (u.clients t).phase = .closing c p)
    (htail : Tail (u.clients t).held p) (hs : s.advance prog capacity t = some s') :
    ∃ u', u.close t c p = some u' ∧ s'.Mirrors u' := by
  have htask : s.tasks t = ⟨(u.clients t).todo, (u.clients t).held, some p,
      (s.tasks t).answers⟩ := by
    rw [h.tasks, shown, hp]
    rfl
  unfold Hall.advance at hs
  rw [htask] at hs
  cases p with
  | done b =>
    obtain rfl := Option.some.inj hs
    refine ⟨_, rfl, h.set rfl rfl (Sys.executed_done rfl) (fun e he => ?_) h.mem h.sent⟩
    rw [List.mem_singleton.mp he]
    rfl
  | unlock i k =>
    obtain rfl := Option.some.inj hs
    exact ⟨_, rfl, h.rephase rfl rfl rfl h.mem h.sent⟩
  | send x k =>
    dsimp only at hs
    split at hs
    · rename_i hfailed
      obtain rfl := Option.some.inj hs
      exact ⟨_, rfl, h.rephase rfl rfl rfl h.mem fun hopen => absurd hfailed hopen⟩
    · rename_i hopen
      split at hs
      · obtain rfl := Option.some.inj hs
        refine ⟨_, rfl, h.rephase rfl rfl rfl h.mem fun _ => ?_⟩
        show s.received ++ (s.channel ++ [x]) = u.sent ++ [x]
        rw [← List.append_assoc, h.sent hopen]
      · cases hs
  | hang | lock _ _ _ | read _ _ | update _ _ _ => exact htail.elim

omit [DecidableEq ι] in
theorem Hall.Mirrors.grants (h : s.Mirrors u) {i : ι} {m : Mode} (hadmits : s.Admits i m) :
    u.Grants i m := by
  cases m with
  | read | write =>
    intro v
    have hv := hadmits v
    rwa [h.tasks] at hv

/-- Each operation of a task is one of its client, or the task joins a line. -/
theorem Hall.Mirrors.advance {mem₀ : ι → σ} (h : s.Mirrors u) (hserial : SerialInv prog mem₀ u abs)
    (hs : s.advance prog capacity t = some s') :
    s'.Mirrors u ∨ ∃ u', u.step prog t = some u' ∧ s'.Mirrors u' := by
  have hc := hserial.client t
  unfold ClientInv at hc
  have htask : s.tasks t = ⟨(u.clients t).todo, (u.clients t).held, (u.clients t).phase.program?,
      (s.tasks t).answers⟩ := by
    rw [h.tasks]
    rfl
  unfold Sys.step
  cases hp : (u.clients t).phase with
  | closing c p =>
    rw [hp] at hc
    exact Or.inr (h.close hp hc.1 hs)
  | idle =>
    refine Or.inr ?_
    unfold Hall.advance at hs
    rw [htask, hp] at hs
    cases htodo : (u.clients t).todo with
    | nil =>
      rw [htodo] at hs
      cases hs
    | cons c cs =>
      rw [htodo] at hs
      obtain rfl := Option.some.inj hs
      exact ⟨_, rfl, h.rephase rfl rfl (by simp [Sys.executed]) h.mem h.sent⟩
  | active c p =>
    rw [hp] at hc htask
    have hcommit : s.Mirrors (u.commit t c p) :=
      h.rephase ((Function.update_eq_self t s.tasks).symm.trans (congrArg _ htask)) rfl rfl
        h.mem h.sent
    have hself : (u.commit t c p).clients t = { u.clients t with phase := .closing c p } :=
      Sys.setClient_self u t _
    have hadvance := hs
    unfold Hall.advance at hs
    rw [htask] at hs
    cases p with
    | done b | unlock i k | send x k =>
      exact Or.inr (hcommit.close (congrArg Client.phase hself) (congrArg Client.held hself ▸ hc.1)
        hadvance)
    | hang =>
      obtain rfl := Option.some.inj hs
      exact Or.inl h
    | lock i m k =>
      dsimp only [Phase.program?] at hs
      split at hs
      · obtain rfl := Option.some.inj hs
        exact Or.inl ⟨h.mem, h.tasks, h.sent⟩
      · split at hs
        · rename_i hfirst
          obtain rfl := Option.some.inj hs
          exact Or.inr ⟨_, if_pos (h.grants hfirst.2), h.rephase rfl rfl rfl h.mem h.sent⟩
        · cases hs
    | read i k =>
      obtain rfl := Option.some.inj hs
      exact Or.inr ⟨_, rfl, h.rephase (by rw [← h.mem]; rfl) rfl rfl h.mem h.sent⟩
    | update i f k =>
      obtain rfl := Option.some.inj hs
      exact Or.inr ⟨_, rfl, h.rephase rfl rfl rfl (by rw [h.mem]) h.sent⟩

theorem Hall.Mirrors.step {mem₀ : ι → σ} {e : Action n} (h : s.Mirrors u)
    (hserial : SerialInv prog mem₀ u abs)
    (hs : s.step prog capacity e = some s') :
    s'.Mirrors u ∨ ∃ t u', u.step prog t = some u' ∧ s'.Mirrors u' := by
  cases e with
  | task t =>
    rcases h.advance hserial hs with hsame | ⟨u', hstep, hmirrors⟩
    · exact Or.inl hsame
    · exact Or.inr ⟨t, u', hstep, hmirrors⟩
  | started ok =>
    simp only [Hall.step] at hs
    split at hs
    · rename_i hstarting
      obtain rfl := Option.some.inj hs
      have hsent := h.sent (by rw [hstarting]; decide)
      cases ok with
      | true => exact Or.inl ⟨h.mem, h.tasks, fun _ => hsent⟩
      | false => exact Or.inl ⟨h.mem, h.tasks, fun hopen => absurd rfl hopen⟩
    · cases hs
  | receive =>
    simp only [Hall.step] at hs
    split at hs
    · rename_i x xs hchannel
      split at hs
      · rename_i hrunning
        obtain rfl := Option.some.inj hs
        refine Or.inl ⟨h.mem, h.tasks, fun hopen => ?_⟩
        rw [← h.sent hopen, hchannel, List.append_assoc]
        rfl
      · cases hs
    · cases hs

/-- Whatever the hall comes to from `r`, the clients come to without the lines and the
channel. -/
theorem Hall.Mirrors.refines {r : Hall n ι σ μ κ α} {v : Sys n ι σ μ κ α}
    (hdisc : ∀ d, Disciplined [] (prog d))
    (h : r.Mirrors v) (hv : Reachable (Sys.step prog) anyStep (Sys.init mem calls) v)
    (hs : Reachable (Hall.step prog capacity) anyStep r s) :
    ∃ u, Reachable (Sys.step prog) anyStep (Sys.init mem calls) u ∧ v.order <+: u.order ∧
      s.Mirrors u := by
  induction hs with
  | init => exact ⟨v, hv, List.prefix_rfl, h⟩
  | step _ _ hstep ih =>
    obtain ⟨u, hu, horder, hmirrors⟩ := ih
    obtain ⟨⟨abs, hserial⟩, -⟩ := soundInv_reachable hdisc hu
    rcases hmirrors.step hserial hstep with hsame | ⟨t, u', hstep', hmirrors'⟩
    · exact ⟨u, hu, horder, hsame⟩
    · exact ⟨u', hu.step trivial hstep', horder.trans (Sys.step_order hstep'), hmirrors'⟩

theorem Hall.refines (hdisc : ∀ d, Disciplined [] (prog d))
    (hs : Reachable (Hall.step prog capacity) anyStep (Hall.init mem calls) s) :
    ∃ u, Reachable (Sys.step prog) anyStep (Sys.init mem calls) u ∧ s.Mirrors u := by
  obtain ⟨u, hu, -, hmirrors⟩ := Hall.mirrors_init.refines hdisc .init hs
  exact ⟨u, hu, hmirrors⟩

end Simulation

section Serialized
variable [DecidableEq ι] {prog : κ → Prog ι σ μ α} {capacity : Nat} {order : ι → Nat}
  {r : Hall n ι σ μ κ α}

/-- The calls have been made one at a time, each client's in its order, with the answers
the tasks have and the cells as they are, those answered in `r` before those not begun
there. -/
def Hall.Serialized (prog : κ → Prog ι σ μ α) (mem : ι → σ) (calls : Fin n → List κ)
    (r s : Hall n ι σ μ κ α) : Prop :=
  ∃ before after : List (Executed n κ α),
    (∀ t, (ofClient (before ++ after) t).map (·.call) = calls t ∧
      (ofClient (before ++ after) t).map (·.reply) = (s.tasks t).answers) ∧
    (∀ t, (r.tasks t).answers.length ≤ (ofClient before t).length ∧
      (ofClient before t).length + (r.tasks t).todo.length ≤ (calls t).length) ∧
    execAll prog ((before ++ after).map (·.call)) mem =
      some ((before ++ after).map (·.reply), s.mem)

omit [DecidableEq ι] in
theorem Hall.Mirrors.quiet (h : s.Mirrors u) (hs : ∀ t, (s.tasks t).Finished) : u.Quiet := by
  intro t
  have hcurrent := (hs t).1
  rw [h.tasks] at hcurrent
  unfold shown Phase.program? at hcurrent
  dsimp only at hcurrent
  split at hcurrent
  · assumption
  all_goals cases hcurrent

omit [DecidableEq ι] in
/-- What has committed by now: all that is answered, and nothing that is not begun. -/
theorem Hall.Mirrors.committed (h : s.Mirrors u) (hturn : u.InTurn calls) (t : Fin n) :
    (s.tasks t).answers.length ≤ (ofClient u.order t).length ∧
      (ofClient u.order t).length + (s.tasks t).todo.length ≤ (calls t).length := by
  have hcalls := congrArg List.length (hturn.calls t)
  have hreplies := congrArg List.length (hturn.replies t)
  have htodo : (u.clients t).todo.length ≤ (u.clients t).calls.length := by
    unfold Client.calls
    split
    · exact le_rfl
    · exact Nat.le_succ _
    · exact le_rfl
  rw [h.tasks]
  simp only [shown, List.length_append, List.length_map] at hcalls hreplies ⊢
  omega

theorem Hall.serialized (hdisc : ∀ d, Disciplined [] (prog d))
    (hr : Reachable (Hall.step prog capacity) anyStep (Hall.init mem calls) r)
    (hs : Reachable (Hall.step prog capacity) anyStep r s) (hfinished : ∀ t, (s.tasks t).Finished) :
    r.Serialized prog mem calls s := by
  obtain ⟨v, hv, hmirrors_r⟩ := Hall.refines hdisc hr
  obtain ⟨u, hu, ⟨after, horder⟩, hmirrors⟩ := hmirrors_r.refines hdisc hv hs
  obtain ⟨⟨abs, hserial⟩, -⟩ := soundInv_reachable hdisc hu
  have hturn := inTurn_reachable hdisc hu
  have hquiet := hmirrors.quiet hfinished
  refine ⟨v.order, after, ?_, hmirrors_r.committed (inTurn_reachable hdisc hv), ?_⟩
  · rw [horder]
    refine fun t => ⟨?_, ?_⟩
    · have htodo : (u.clients t).todo = [] := by
        have hfin := (hfinished t).2
        rwa [hmirrors.tasks] at hfin
      have hcalls := hturn.calls t
      rwa [Client.calls, hquiet t, htodo, List.append_nil] at hcalls
    · have hreplies := hturn.replies t
      rw [Client.owed, hquiet t, List.append_nil] at hreplies
      rw [← hreplies, hmirrors.tasks]
      rfl
  · rw [horder, hmirrors.mem, hserial.quiet hquiet]
    exact hserial.legal

/-- Calls that are two-phase and climb all come to an end, as one at a time. -/
theorem Hall.ends_serialized (hcapacity : 0 < capacity) (hdisc : ∀ d, Disciplined [] (prog d))
    (hclimbs : ∀ t, ∀ c ∈ calls t, Climbs order [] (prog c))
    (hr : Reachable (Hall.step prog capacity) anyStep (Hall.init mem calls) r) :
    Inevitable (Hall.step prog capacity) (fun s => s.Settled ∧ r.Serialized prog mem calls s) r :=
  ((Hall.sound_reachable hclimbs hr).ends hcapacity).of_reachable
    (fun _ hs hsettled => ⟨hsettled, Hall.serialized hdisc hr hs hsettled.1⟩) .init

/-- Where messages are sent under the locks of what they touch, those received act as
the calls did. -/
theorem Hall.received_serial {δ : Type} {act : μ → δ → δ} {view : (ι → σ) → δ}
    {indep : μ → μ → Prop}
    {touches : μ → ι → Prop} (hdisc : ∀ d, Disciplined [] (prog d))
    (hcomm : ∀ x y, indep x y → ∀ d, act x (act y d) = act y (act x d))
    (hview : ∀ c mem a mem' xs, (prog c).run mem = some (a, mem', xs) →
      view mem' = applyAll act xs (view mem))
    (hindep : ∀ x y, (∀ i, touches x i → ¬ touches y i) → indep x y)
    (hcalls : ∀ t, ∀ c ∈ calls t, SendsUnder touches [] (prog c))
    (hs : Reachable (Hall.step prog capacity) anyStep (Hall.init mem calls) s)
    (hsettled : s.Settled)
    (hopen : s.intake ≠ .failed) : applyAll act s.received (view mem) = view s.mem := by
  obtain ⟨u, hu, hmirrors⟩ := Hall.refines hdisc hs
  have hlog :=
    log_serial hdisc hcomm hview (reachable_sendOk hdisc hcomm hview hindep hcalls hu)
      (hmirrors.quiet hsettled.1)
  have hsent := hmirrors.sent hopen
  rw [hsettled.2, List.append_nil] at hsent
  rw [hsent, hmirrors.mem]
  exact hlog

end Serialized

end Fifo
