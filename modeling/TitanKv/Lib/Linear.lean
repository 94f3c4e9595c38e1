import Mathlib.Data.List.Nodup
import TitanKv.Lib.Serial

/-! # Two-phase clients are linearizable

`HistoryInv` relates the commit order to the observable history: every ended
call is in the order exactly once, and a call that ended before another started
comes before it. With `SerialInv` this gives `linearizable`: in every quiet
state the ended calls have a sequential order that respects real time and
explains all replies and the cells. -/

namespace TwoPhase
open Runs

variable {n : Nat} {ι σ μ κ α : Type} [DecidableEq ι] {prog : κ → Prog ι σ μ α}

/-- The identity of a call: its client and its number there. -/
def Executed.id (e : Executed n κ α) : Fin n × Nat := (e.client, e.seq)

/-- `e` ended before `e'` started. -/
def Sys.Precedes (s : Sys n ι σ μ κ α) (e e' : Executed n κ α) : Prop :=
  [Event.finished e, Event.started e'.toCall].Sublist s.history

def Client.Closing (x : Client ι σ μ κ α) : Prop := ∃ c p, x.phase = .closing c p

structure HistoryInv (s : Sys n ι σ μ κ α) : Prop where
  numbered : ∀ e ∈ s.order, e.seq < (s.clients e.client).count ∨
    e.seq = (s.clients e.client).count ∧ (s.clients e.client).Closing
  orderOnce : (s.order.map Executed.id).Nodup
  executed : ∀ e, e ∈ s.executed ↔ e ∈ s.order ∧ e.seq < (s.clients e.client).count
  executedOnce : (s.executed.map Executed.id).Nodup
  respects : ∀ e, ∀ e' ∈ s.order, s.Precedes e e' → [e, e'].Sublist s.order

theorem pair_sublist_snoc {γ : Type} {x y z : γ} {l : List γ} (h : [x, y].Sublist (l ++ [z])) :
    [x, y].Sublist l ∨ x ∈ l ∧ y = z := by
  obtain ⟨l₁, l₂, hl, h₁, h₂⟩ := List.sublist_append_iff.mp h
  cases l₂ with
  | nil =>
    rw [List.append_nil] at hl
    exact Or.inl (hl ▸ h₁)
  | cons w ws =>
    have hlen := h₂.length_le
    have hnil : ws = [] := List.length_eq_zero_iff.mp (by simpa using hlen)
    subst hnil
    have hw : w = z := by simpa using h₂
    have hsplit : [x] ++ [y] = l₁ ++ [w] := hl
    obtain ⟨rfl, hy⟩ := List.append_inj' hsplit rfl
    exact Or.inr ⟨List.singleton_sublist.mp h₁, by simpa [hw] using hy⟩

omit [DecidableEq ι] in
theorem HistoryInv.init {mem₀ : ι → σ} {calls : Fin n → List κ} :
    HistoryInv (Sys.init mem₀ calls : Sys n ι σ μ κ α) where
  numbered _ he := by simp [Sys.init] at he
  orderOnce := List.nodup_nil
  executed e := by simp [Sys.init, Sys.executed]
  executedOnce := List.nodup_nil
  respects _ _ he := by simp [Sys.init] at he

section Step
variable {s : Sys n ι σ μ κ α} {t : Fin n} {c : κ}

omit [DecidableEq ι] in
/-- Steps that touch neither the order nor the ended calls. -/
theorem HistoryInv.rephase (h : HistoryInv s) {s' : Sys n ι σ μ κ α}
    {x : Client ι σ μ κ α} (horder : s'.order = s.order) (hexec : s'.executed = s.executed)
    (hclients : s'.clients = (s.setClient t x).clients) (hcount : x.count = (s.clients t).count)
    (hclosing : (s.clients t).Closing → x.Closing)
    (hprec : ∀ e, ∀ e' ∈ s.order, s'.Precedes e e' → s.Precedes e e') : HistoryInv s' := by
  have hcounts : ∀ u, (s'.clients u).count = (s.clients u).count := by
    intro u
    rw [hclients]
    by_cases hu : u = t
    · subst hu; rw [Sys.setClient_self, hcount]
    · rw [Sys.setClient_of_ne s _ hu]
  refine ⟨?_, by rw [horder]; exact h.orderOnce, ?_, by rw [hexec]; exact h.executedOnce, ?_⟩
  · intro e he
    rw [horder] at he
    rw [hcounts]
    refine (h.numbered e he).imp_right fun ⟨hseq, hcl⟩ => ⟨hseq, ?_⟩
    rw [hclients]
    by_cases hu : e.client = t
    · rw [hu, Sys.setClient_self]; exact hclosing (hu ▸ hcl)
    · rw [Sys.setClient_of_ne s _ hu]; exact hcl
  · intro e
    rw [hexec, horder, hcounts]
    exact h.executed e
  · intro e e' he' hp
    rw [horder] at he' ⊢
    exact h.respects e e' he' (hprec e e' he' hp)

omit [DecidableEq ι] in
/-- No call in the order is the one an unfinished client runs before it commits. -/
theorem HistoryInv.fresh (h : HistoryInv s) (hcl : ¬ (s.clients t).Closing) :
    ∀ e ∈ s.order, e.id ≠ (t, (s.clients t).count) := by
  intro e he hid
  obtain ⟨rfl, hseq⟩ := Prod.mk.inj hid
  rcases h.numbered e he with hlt | ⟨_, hclosing⟩
  · omega
  · exact hcl hclosing

omit [DecidableEq ι] in
theorem HistoryInv.commit (h : HistoryInv s) {p : Prog ι σ μ α}
    (hp : (s.clients t).phase = .active c p) : HistoryInv (s.commit t c p) := by
  have hncl : ¬ (s.clients t).Closing := by rintro ⟨d, q, hq⟩; rw [hp] at hq; cases hq
  have hcounts : ∀ u, ((s.commit t c p).clients u).count = (s.clients u).count := by
    intro u
    by_cases hu : u = t
    · subst hu; simp [Sys.commit, Sys.setClient]
    · simp [Sys.commit, Sys.setClient, hu]
  have hclosing : ∀ u, (s.clients u).Closing → ((s.commit t c p).clients u).Closing := by
    intro u hu
    by_cases hut : u = t
    · subst hut; exact absurd hu hncl
    · simpa [Sys.commit, Sys.setClient, hut] using hu
  have hnew : ∀ e ∈ (p.reply?.map fun a => (⟨s.callOf t c, a⟩ : Executed n κ α)).toList,
      e.id = (t, (s.clients t).count) := by
    intro e he
    obtain ⟨a, _, rfl⟩ := by simpa using he
    rfl
  have hmono : ∀ e ∈ s.order, e ∈ (s.commit t c p).order := fun e he => List.mem_append_left _ he
  refine ⟨?_, ?_, ?_, h.executedOnce, ?_⟩
  · intro e he
    rw [hcounts]
    rcases List.mem_append.mp he with he | he
    · exact (h.numbered e he).imp_right fun hn => ⟨hn.1, hclosing _ hn.2⟩
    · obtain ⟨hclient, hseq⟩ := Prod.mk.inj (hnew e he)
      refine Or.inr ⟨by rw [hclient, hseq], c, p, ?_⟩
      rw [hclient]
      simp [Sys.commit, Sys.setClient]
  · have hold := h.fresh hncl
    simp only [Sys.commit, List.map_append]
    refine List.nodup_append.mpr ⟨h.orderOnce, ?_, ?_⟩
    · cases p.reply? <;> simp
    · intro i hi j hj hij
      obtain ⟨e, he, rfl⟩ := List.mem_map.mp hi
      obtain ⟨e', he', rfl⟩ := List.mem_map.mp hj
      exact hold e he (hij.trans (hnew e' he'))
  · intro e
    rw [hcounts]
    refine (h.executed e).trans ⟨fun hin => ⟨hmono e hin.1, hin.2⟩, fun hin => ⟨?_, hin.2⟩⟩
    obtain ⟨he, hlt⟩ := hin
    rcases List.mem_append.mp he with he | he
    · exact he
    · obtain ⟨hclient, hseq⟩ := Prod.mk.inj (hnew e he)
      rw [hclient, hseq] at hlt
      exact absurd hlt (Nat.lt_irrefl _)
  · intro e e' he' hprec
    rcases List.mem_append.mp he' with he' | he'
    · exact (h.respects e e' he' hprec).trans (List.sublist_append_left _ _)
    · have hfin : Event.finished e ∈ s.history := hprec.subset (by simp)
      have hmem : e ∈ s.order :=
        ((h.executed e).mp (List.mem_filterMap.mpr ⟨_, hfin, rfl⟩)).1
      exact (List.singleton_sublist.mpr hmem).append (List.singleton_sublist.mpr he')

theorem HistoryInv.close (h : HistoryInv s) {p : Prog ι σ μ α}
    (hp : (s.clients t).phase = .closing c p)
    (hrec : ∃ a, p.reply? = some a ∧ ⟨⟨t, (s.clients t).count, c⟩, a⟩ ∈ s.order)
    {s' : Sys n ι σ μ κ α} (hs : s.close t c p = some s') : HistoryInv s' := by
  cases p with
  | unlock i k =>
    obtain rfl := Option.some.inj hs
    exact h.rephase rfl rfl rfl rfl (fun _ => ⟨c, k, rfl⟩) (fun _ _ _ hprec => hprec)
  | send x k =>
    obtain rfl := Option.some.inj hs
    exact h.rephase rfl rfl rfl rfl (fun _ => ⟨c, k, rfl⟩) (fun _ _ _ hprec => hprec)
  | hang => cases hs
  | lock i m k => cases hs
  | read i k => cases hs
  | update i f k => cases hs
  | done b =>
    obtain rfl := Option.some.inj hs
    obtain ⟨a, ha, hmem⟩ := hrec
    obtain rfl := Option.some.inj ha
    let e₀ : Executed n κ α := ⟨s.callOf t c, b⟩
    have hcounts : ∀ u, u ≠ t → ((s.setClient t
        { s.clients t with count := (s.clients t).count + 1, phase := .idle }).clients u) =
        s.clients u := fun u hu => Sys.setClient_of_ne s _ hu
    have hexec : Sys.executed { s.setClient t
        { s.clients t with count := (s.clients t).count + 1, phase := .idle } with
          history := s.history ++ [.finished e₀] } = s.executed ++ [e₀] := by
      simp [Sys.executed]
    refine ⟨?_, h.orderOnce, ?_, ?_, ?_⟩
    · intro e he
      by_cases hu : e.client = t
      · refine Or.inl ?_
        have hle := h.numbered e he
        rw [hu] at hle ⊢
        simp only [Sys.setClient_self]
        omega
      · rw [hcounts _ hu]; exact h.numbered e he
    · intro e
      have happ : e ∈ s.executed ++ [e₀] ↔
          e ∈ s.order ∧ e.seq < ((s.setClient t
            { s.clients t with count := (s.clients t).count + 1, phase := .idle }).clients
              e.client).count := by
        rw [List.mem_append, h.executed e, List.mem_singleton]
        by_cases hu : e.client = t
        · rw [hu, Sys.setClient_self]
          constructor
          · rintro (⟨he, hlt⟩ | rfl)
            · exact ⟨he, Nat.lt_succ_of_lt hlt⟩
            · exact ⟨hmem, Nat.lt_succ_self _⟩
          · rintro ⟨he, hlt⟩
            rcases Nat.lt_succ_iff_lt_or_eq.mp hlt with hlt | heq
            · exact Or.inl ⟨he, hlt⟩
            · exact Or.inr (List.inj_on_of_nodup_map h.orderOnce he hmem
                (Prod.ext hu heq))
        · rw [hcounts _ hu]
          refine ⟨fun hor => hor.elim id fun heq => absurd (congrArg (·.client) heq) hu, Or.inl⟩
      rwa [← hexec] at happ
    · have hfresh : e₀.id ∉ s.executed.map Executed.id := by
        intro hm
        obtain ⟨e, he, hid⟩ := List.mem_map.mp hm
        obtain ⟨hclient, hseq⟩ := Prod.mk.inj hid
        have hlt := ((h.executed e).mp he).2
        rw [hclient, hseq] at hlt
        exact absurd hlt (Nat.lt_irrefl _)
      have happ : ((s.executed ++ [e₀]).map Executed.id).Nodup := by
        rw [List.map_append]
        exact List.nodup_append.mpr ⟨h.executedOnce, by simp, fun i hi j hj hij => by
          obtain rfl := List.mem_singleton.mp hj
          exact hfresh (hij ▸ hi)⟩
      rwa [← hexec] at happ
    · intro e e' he' hprec
      rcases pair_sublist_snoc hprec with hold | ⟨_, hlast⟩
      · exact h.respects e e' he' hold
      · cases hlast

theorem HistoryInv.step {mem₀ abs : ι → σ} (h : HistoryInv s)
    (hserial : SerialInv prog mem₀ s abs) {s' : Sys n ι σ μ κ α}
    (hs : s.step prog t = some s') : HistoryInv s' := by
  cases Sys.step_move hs with
  | @start d ds hp =>
    have hncl : ¬ (s.clients t).Closing := by rintro ⟨e, q, hq⟩; rw [hp] at hq; cases hq
    refine h.rephase rfl (by simp [Sys.executed]) rfl rfl (fun hcl => absurd hcl hncl) ?_
    intro e e' he' hprec
    rcases pair_sublist_snoc hprec with hold | ⟨_, hlast⟩
    · exact hold
    · have hcall : e'.toCall = s.callOf t d := Event.started.inj hlast
      have hid : e'.id = (t, (s.clients t).count) := by
        simp only [Executed.id, hcall, Sys.callOf]
      exact absurd hid (h.fresh hncl e' he')
  | @access d p q held mem hp _ =>
    have hncl : ¬ (s.clients t).Closing := by rintro ⟨e, q, hq⟩; rw [hp] at hq; cases hq
    exact h.rephase rfl rfl rfl rfl (fun hcl => absurd hcl hncl) (fun _ _ _ hprec => hprec)
  | @close d p _ hp hclose =>
    have hc := hserial.client t
    unfold ClientInv at hc
    rw [hp] at hc
    exact h.close hp hc.2 hclose
  | @commit d p _ hp htail hclose =>
    have hc := hserial.client t
    unfold ClientInv at hc
    rw [hp] at hc
    obtain ⟨_, abs', _, hcommit⟩ := hserial.commit hp (htail _ hc.1)
    have hp' : ((s.commit t d p).clients t).phase = .closing d p := by
      simp [Sys.commit, Sys.setClient]
    have hc' := hcommit.client t
    unfold ClientInv at hc'
    rw [hp'] at hc'
    exact (h.commit hp).close hp' hc'.2 hclose

end Step

/-- Both invariants, with some serial cells. -/
def SoundInv (prog : κ → Prog ι σ μ α) (mem₀ : ι → σ) (s : Sys n ι σ μ κ α) : Prop :=
  (∃ abs, SerialInv prog mem₀ s abs) ∧ HistoryInv s

theorem soundInv_reachable (hdisc : ∀ d, Disciplined [] (prog d)) {mem₀ : ι → σ}
    {calls : Fin n → List κ} {ok : Sys n ι σ μ κ α → Fin n → Prop} {s : Sys n ι σ μ κ α}
    (hreach : Reachable (Sys.step prog) ok (Sys.init mem₀ calls) s) : SoundInv prog mem₀ s := by
  refine hreach.inv ⟨⟨mem₀, .init⟩, .init⟩ ?_
  intro s t s' hi _ hs
  obtain ⟨⟨abs, hserial⟩, hhist⟩ := hi
  obtain ⟨abs', hserial', _⟩ := hserial.step hdisc hs
  exact ⟨⟨abs', hserial'⟩, hhist.step hserial hs⟩

/-- In every quiet state the ended calls have a sequential order that respects
real time, gives every reply and leaves the cells as they are. -/
theorem linearizable (hdisc : ∀ d, Disciplined [] (prog d)) {mem₀ : ι → σ}
    {calls : Fin n → List κ} {s : Sys n ι σ μ κ α}
    (hreach : Reachable (Sys.step prog) anyStep (Sys.init mem₀ calls) s) (hq : s.Quiet) :
    ∃ order : List (Executed n κ α), order.Perm s.executed ∧
      (∀ e ∈ order, ∀ e' ∈ order, s.Precedes e e' → [e, e'].Sublist order) ∧
      execAll prog (order.map (·.call)) mem₀ = some (order.map (·.reply), s.mem) := by
  obtain ⟨⟨abs, hserial⟩, hhist⟩ := soundInv_reachable hdisc hreach
  refine ⟨s.order, ?_, fun e _ e' he' => hhist.respects e e' he', ?_⟩
  · have hdone : ∀ e, e ∈ s.order ↔ e ∈ s.executed := by
      intro e
      rw [hhist.executed e]
      refine ⟨fun he => ⟨he, ?_⟩, And.left⟩
      rcases hhist.numbered e he with hlt | ⟨_, d, p, hp⟩
      · exact hlt
      · rw [hq] at hp; cases hp
    exact (List.perm_ext_iff_of_nodup (hhist.orderOnce.of_map _)
      (hhist.executedOnce.of_map _)).mpr hdone
  · rw [hserial.quiet hq]
    exact hserial.legal

end TwoPhase
