import TitanKv.Lib.Clients

/-! # Two-phase clients are serial

The calls of disciplined clients take effect in the order they commit: `abs`,
the cells after running the committed calls one at a time, equals the real
cells wherever no call under way holds a write lock, and a call under way
computes from its own locked cells what it would compute from `abs`. -/

namespace TwoPhase

variable {n : Nat} {ι σ μ κ α : Type} [DecidableEq ι] {prog : κ → Prog ι σ μ α}

/-- The cells as one call sees them: its locked cells as they are, the others
from `base`. -/
def overlay (held : List (ι × Mode)) (mem base : ι → σ) : ι → σ :=
  fun i => if i ∈ held.map Prod.fst then mem i else base i

theorem overlay_of_mem {held : List (ι × Mode)} {mem base : ι → σ} {i : ι}
    (h : i ∈ held.map Prod.fst) : overlay held mem base i = mem i := if_pos h

theorem overlay_of_notMem {held : List (ι × Mode)} {mem base : ι → σ} {i : ι}
    (h : i ∉ held.map Prod.fst) : overlay held mem base i = base i := if_neg h

@[simp] theorem overlay_nil (mem base : ι → σ) : overlay [] mem base = base := by
  funext i; simp [overlay]

theorem overlay_update {held : List (ι × Mode)} {mem base : ι → σ} {i : ι} (v : σ)
    (h : i ∈ held.map Prod.fst) :
    overlay held (Function.update mem i v) base = Function.update (overlay held mem base) i v := by
  funext j
  by_cases hj : j = i
  · subst hj; simp [overlay_of_mem h]
  · simp [overlay, hj]

/-- What is left of a call computes what the whole call would, from any cells
that agree with `abs` on its locks. -/
def Tracks (prog : κ → Prog ι σ μ α) (mem abs : ι → σ) (held : List (ι × Mode)) (c : κ)
    (p : Prog ι σ μ α) : Prop :=
  ∀ base, (∀ i ∈ held.map Prod.fst, base i = abs i) →
    (prog c).run base = p.run (overlay held mem base)

def ClientInv (prog : κ → Prog ι σ μ α) (mem abs : ι → σ) (order : List (Executed n κ α))
    (t : Fin n) (x : Client ι σ μ κ α) : Prop :=
  match x.phase with
  | .idle => x.held = []
  | .active c p => Disciplined x.held p ∧ Tracks prog mem abs x.held c p
  | .closing c p => Tail x.held p ∧ ∃ a, p.reply? = some a ∧ ⟨⟨t, x.count, c⟩, a⟩ ∈ order

/-- A client's invariant looks only at its own locked cells. -/
theorem ClientInv.transfer {mem mem' abs abs' : ι → σ} {order order' : List (Executed n κ α)}
    {t : Fin n} {x : Client ι σ μ κ α} (h : ClientInv prog mem abs order t x)
    (hm : ∀ i ∈ x.held.map Prod.fst, mem' i = mem i)
    (ha : ∀ i ∈ x.held.map Prod.fst, abs' i = abs i)
    (ho : ∀ e ∈ order, e ∈ order') : ClientInv prog mem' abs' order' t x := by
  unfold ClientInv at h ⊢
  cases hp : x.phase with
  | idle => rw [hp] at h; exact h
  | active c p =>
    rw [hp] at h
    refine ⟨h.1, fun base hb => ?_⟩
    have hover : overlay x.held mem' base = overlay x.held mem base := by
      funext i
      by_cases hi : i ∈ x.held.map Prod.fst
      · rw [overlay_of_mem hi, overlay_of_mem hi, hm i hi]
      · rw [overlay_of_notMem hi, overlay_of_notMem hi]
    rw [hover]
    exact h.2 base fun i hi => (hb i hi).trans (ha i hi)
  | closing c p =>
    rw [hp] at h
    obtain ⟨htail, a, hr, hm⟩ := h
    exact ⟨htail, a, hr, ho _ hm⟩

def Client.Active (x : Client ι σ μ κ α) : Prop := ∃ c p, x.phase = .active c p

structure SerialInv (prog : κ → Prog ι σ μ α) (mem₀ : ι → σ) (s : Sys n ι σ μ κ α)
    (abs : ι → σ) : Prop where
  legal : execAll prog (s.order.map (·.call)) mem₀ = some (s.order.map (·.reply), abs)
  agrees : ∀ i, (∀ t, (s.clients t).Active → (i, Mode.write) ∉ (s.clients t).held) →
    s.mem i = abs i
  exclusive : ∀ t t' i m, t ≠ t' → (i, Mode.write) ∈ (s.clients t).held →
    (i, m) ∉ (s.clients t').held
  client : ∀ t, ClientInv prog s.mem abs s.order t (s.clients t)

theorem SerialInv.init {mem₀ : ι → σ} {calls : Fin n → List κ} :
    SerialInv prog mem₀ (Sys.init mem₀ calls) mem₀ where
  legal := rfl
  agrees _ _ := rfl
  exclusive _ _ _ _ _ hm := by simp [Sys.init] at hm
  client _ := rfl

/-- A cell somebody else holds is as in `abs`. -/
theorem SerialInv.shared {mem₀ : ι → σ} {s : Sys n ι σ μ κ α} {abs : ι → σ}
    (h : SerialInv prog mem₀ s abs) {t t' : Fin n} (ht : t ≠ t') {i : ι}
    (hi : i ∈ (s.clients t).held.map Prod.fst) (hi' : i ∈ (s.clients t').held.map Prod.fst) :
    s.mem i = abs i := by
  obtain ⟨⟨_, m⟩, hm, rfl⟩ := List.mem_map.mp hi
  obtain ⟨⟨_, m'⟩, hm', hfst⟩ := List.mem_map.mp hi'
  obtain rfl : _ = _ := hfst
  refine h.agrees _ fun u _ hw => ?_
  by_cases hu : u = t
  · subst hu; exact h.exclusive u t' _ m' ht hw hm'
  · exact h.exclusive u t _ m hu hw hm

section Step
variable {mem₀ : ι → σ} {s : Sys n ι σ μ κ α} {abs : ι → σ} {t : Fin n} {c : κ}

/-- A step that changes one client and no cell keeps the invariant if the
client's new record is in order and its locks conflict with nobody. -/
theorem SerialInv.setClient (h : SerialInv prog mem₀ s abs) {x : Client ι σ μ κ α}
    {s' : Sys n ι σ μ κ α} (hmem : s'.mem = s.mem) (horder : s'.order = s.order)
    (hclients : s'.clients = (s.setClient t x).clients)
    (hx : ClientInv prog s.mem abs s.order t x)
    (hagrees : ∀ i, (x.Active → (i, Mode.write) ∉ x.held) → (s.clients t).Active →
      (i, Mode.write) ∉ (s.clients t).held)
    (hexcl : ∀ u i m, u ≠ t → ((i, Mode.write) ∈ x.held → (i, m) ∉ (s.clients u).held) ∧
      ((i, Mode.write) ∈ (s.clients u).held → (i, m) ∉ x.held)) :
    SerialInv prog mem₀ s' abs := by
  have hself : s'.clients t = x := by rw [hclients, Sys.setClient_self]
  have hne : ∀ u, u ≠ t → s'.clients u = s.clients u := fun u hu => by
    rw [hclients, Sys.setClient_of_ne s x hu]
  refine ⟨by rw [horder]; exact h.legal, ?_, ?_, ?_⟩
  · intro i hi
    rw [hmem]
    refine h.agrees i fun u ha => ?_
    by_cases hu : u = t
    · subst hu; exact hagrees i (fun hx => by simpa [hself] using hi u (by rwa [hself])) ha
    · simpa [hne u hu] using hi u (by rwa [hne u hu])
  · intro u u' i m huu hw
    by_cases hu : u = t
    · subst hu
      rw [hself] at hw
      rw [hne u' (Ne.symm huu)]
      exact (hexcl u' i m (Ne.symm huu)).1 hw
    · rw [hne u hu] at hw
      by_cases hu' : u' = t
      · subst hu'; rw [hself]; exact (hexcl u i m hu).2 hw
      · rw [hne u' hu']; exact h.exclusive u u' i m huu hw
  · intro u
    rw [hmem, horder]
    by_cases hu : u = t
    · subst hu; rw [hself]; exact hx
    · rw [hne u hu]; exact h.client u

/-- The case of unchanged locks. -/
theorem SerialInv.rephase (h : SerialInv prog mem₀ s abs) {x : Client ι σ μ κ α}
    {s' : Sys n ι σ μ κ α} (hmem : s'.mem = s.mem) (horder : s'.order = s.order)
    (hclients : s'.clients = (s.setClient t x).clients)
    (hx : ClientInv prog s.mem abs s.order t x) (hheld : x.held = (s.clients t).held)
    (hactive : (s.clients t).Active → x.Active) : SerialInv prog mem₀ s' abs := by
  refine h.setClient hmem horder hclients hx ?_ ?_
  · intro i hi ha
    rw [← hheld]; exact hi (hactive ha)
  · intro u i m hu
    rw [hheld]
    exact ⟨h.exclusive t u i m (Ne.symm hu), h.exclusive u t i m hu⟩

theorem SerialInv.start (h : SerialInv prog mem₀ s abs) (hdisc : ∀ d, Disciplined [] (prog d))
    (hp : (s.clients t).phase = .idle) {cs : List κ} {s' : Sys n ι σ μ κ α}
    (hmem : s'.mem = s.mem) (horder : s'.order = s.order)
    (hclients : s'.clients = (s.setClient t
      { s.clients t with todo := cs, phase := .active c (prog c) }).clients) :
    SerialInv prog mem₀ s' abs := by
  have hheld : (s.clients t).held = [] := by
    have hc := h.client t
    unfold ClientInv at hc
    rw [hp] at hc
    exact hc
  refine h.rephase hmem horder hclients ?_ rfl ?_
  · simp only [ClientInv, hheld]
    exact ⟨hdisc c, fun base _ => by rw [overlay_nil]⟩
  · rintro ⟨d, q, hq⟩; rw [hp] at hq; cases hq

theorem SerialInv.lock (h : SerialInv prog mem₀ s abs) {i : ι} {m : Mode} {k : Prog ι σ μ α}
    (hp : (s.clients t).phase = .active c (.lock i m k)) (hg : s.Grants i m) :
    SerialInv prog mem₀ (s.setClient t
      { s.clients t with held := (i, m) :: (s.clients t).held, phase := .active c k }) abs := by
  have hc := h.client t
  unfold ClientInv at hc
  rw [hp] at hc
  obtain ⟨⟨_, hdisc⟩, htracks⟩ := hc
  have hfree : ∀ u, (i, Mode.write) ∉ (s.clients u).held := by
    cases m with
    | read => exact hg
    | write => exact fun u hw => hg u (List.mem_map.mpr ⟨_, hw, rfl⟩)
  have hi : s.mem i = abs i := h.agrees i fun u _ => hfree u
  refine h.setClient rfl rfl rfl ?_ ?_ ?_
  · simp only [ClientInv]
    refine ⟨hdisc, fun base hb => ?_⟩
    have hover : overlay ((i, m) :: (s.clients t).held) s.mem base =
        overlay (s.clients t).held s.mem base := by
      funext j
      by_cases hj : j ∈ (s.clients t).held.map Prod.fst
      · rw [overlay_of_mem hj, overlay_of_mem (List.mem_cons_of_mem _ hj)]
      · rw [overlay_of_notMem hj]
        by_cases hji : j = i
        · subst hji
          rw [overlay_of_mem (by simp), hi, hb j (by simp)]
        · rw [overlay_of_notMem (by simpa [hji] using hj)]
    rw [hover]
    simpa using htracks base fun j hj => hb j (List.mem_cons_of_mem _ hj)
  · intro j hj _ hw
    exact hj ⟨c, k, rfl⟩ (List.mem_cons_of_mem _ hw)
  · intro u j m' hu
    constructor
    · intro hw hm'
      rcases List.mem_cons.mp hw with heq | hw
      · obtain ⟨rfl, rfl⟩ := Prod.mk.inj heq
        exact hg u (List.mem_map.mpr ⟨_, hm', rfl⟩)
      · exact h.exclusive t u j m' (Ne.symm hu) hw hm'
    · intro hw hm'
      rcases List.mem_cons.mp hm' with heq | hm'
      · obtain ⟨rfl, rfl⟩ := Prod.mk.inj heq
        exact hfree u hw
      · exact h.exclusive u t j m' hu hw hm'

theorem SerialInv.read (h : SerialInv prog mem₀ s abs) {i : ι} {k : σ → Prog ι σ μ α}
    (hp : (s.clients t).phase = .active c (.read i k)) :
    SerialInv prog mem₀ (s.setClient t
      { s.clients t with phase := .active c (k (s.mem i)) }) abs := by
  have hc := h.client t
  unfold ClientInv at hc
  rw [hp] at hc
  obtain ⟨⟨hi, hdisc⟩, htracks⟩ := hc
  refine h.rephase rfl rfl rfl ?_ rfl (fun _ => ⟨c, _, rfl⟩)
  simp only [ClientInv]
  refine ⟨hdisc _, fun base hb => ?_⟩
  rw [htracks base hb, Prog.run_read, overlay_of_mem hi]

theorem SerialInv.update (h : SerialInv prog mem₀ s abs) {i : ι} {f : σ → σ} {k : Prog ι σ μ α}
    (hp : (s.clients t).phase = .active c (.update i f k)) :
    SerialInv prog mem₀
      { s.setClient t { s.clients t with phase := .active c k } with
        mem := Function.update s.mem i (f (s.mem i)) } abs := by
  have hc := h.client t
  unfold ClientInv at hc
  rw [hp] at hc
  obtain ⟨⟨hi, hdisc⟩, htracks⟩ := hc
  have hi' : i ∈ (s.clients t).held.map Prod.fst := List.mem_map.mpr ⟨_, hi, rfl⟩
  refine ⟨h.legal, ?_, ?_, ?_⟩
  · intro j hj
    by_cases hji : j = i
    · subst hji
      have := hj t ⟨c, k, by rw [Sys.setClient_self]⟩
      rw [Sys.setClient_self] at this
      exact absurd hi this
    · simp only [Function.update_of_ne hji]
      refine h.agrees j fun u ha => ?_
      by_cases hu : u = t
      · subst hu
        have := hj u ⟨c, k, by rw [Sys.setClient_self]⟩
        rwa [Sys.setClient_self] at this
      · have := hj u
        rw [Sys.setClient_of_ne s _ hu] at this
        exact this ha
  · intro u u' j m huu
    have hsame : ∀ v, ((s.setClient t { s.clients t with phase := .active c k }).clients v).held =
        (s.clients v).held := by
      intro v
      by_cases hv : v = t
      · subst hv; rw [Sys.setClient_self]
      · rw [Sys.setClient_of_ne s _ hv]
    rw [hsame, hsame]
    exact h.exclusive u u' j m huu
  · intro u
    by_cases hu : u = t
    · subst hu
      rw [Sys.setClient_self]
      refine ⟨hdisc, fun base hb => ?_⟩
      rw [htracks base hb, Prog.run_update, overlay_update _ hi', overlay_of_mem hi']
    · rw [Sys.setClient_of_ne s _ hu]
      refine (h.client u).transfer (fun j hj => ?_) (fun _ _ => rfl) (fun _ he => he)
      have hji : j ≠ i := by
        rintro rfl
        obtain ⟨⟨_, m⟩, hm, rfl⟩ := List.mem_map.mp hj
        exact h.exclusive t u _ m (Ne.symm hu) hi hm
      exact Function.update_of_ne hji _ _

/-- Past its last access the call is appended to the order, and the serial cells
catch up with the real ones on its locks. -/
theorem SerialInv.commit (h : SerialInv prog mem₀ s abs) {p : Prog ι σ μ α}
    (hp : (s.clients t).phase = .active c p) (htail : Tail (s.clients t).held p) :
    ∃ a abs', (prog c).run abs = some (a, abs', p.pending) ∧
      SerialInv prog mem₀ (s.commit t c p) abs' := by
  have hc := h.client t
  unfold ClientInv at hc
  rw [hp] at hc
  obtain ⟨a, hreply, hrun⟩ := htail.run
  let abs' := overlay (s.clients t).held s.mem abs
  have hcall : (prog c).run abs = some (a, abs', p.pending) := by
    rw [hc.2 abs fun _ _ => rfl, hrun]
  have horder : (s.commit t c p).order = s.order ++ [⟨s.callOf t c, a⟩] := by
    simp [Sys.commit, hreply]
  have hclients : (s.commit t c p).clients =
      (s.setClient t { s.clients t with phase := .closing c p }).clients := rfl
  have hheld : ∀ u, ((s.commit t c p).clients u).held = (s.clients u).held := by
    intro u
    rw [hclients]
    by_cases hu : u = t
    · subst hu; rw [Sys.setClient_self]
    · rw [Sys.setClient_of_ne s _ hu]
  refine ⟨a, abs', hcall, ?_, ?_, ?_, ?_⟩
  · rw [horder]
    simpa [Sys.callOf] using execAll_snoc h.legal hcall
  · intro i hi
    by_cases hheldi : i ∈ (s.clients t).held.map Prod.fst
    · exact (overlay_of_mem hheldi).symm
    · refine Eq.trans (h.agrees i fun u ha => ?_) (overlay_of_notMem hheldi).symm
      by_cases hu : u = t
      · subst hu
        exact fun hw => hheldi (List.mem_map.mpr ⟨_, hw, rfl⟩)
      · have hu' := hi u
        rw [hclients, Sys.setClient_of_ne s _ hu] at hu'
        exact hu' ha
  · intro u u' i m huu
    rw [hheld, hheld]
    exact h.exclusive u u' i m huu
  · intro u
    by_cases hu : u = t
    · subst hu
      rw [hclients, Sys.setClient_self]
      exact ⟨htail, a, hreply, by rw [horder]; simp [Sys.callOf]⟩
    · rw [hclients, Sys.setClient_of_ne s _ hu]
      refine (h.client u).transfer (fun _ _ => rfl) (fun i hi => ?_)
        (fun e he => by rw [horder]; exact List.mem_append_left _ he)
      by_cases hheldi : i ∈ (s.clients t).held.map Prod.fst
      · exact (overlay_of_mem hheldi).trans (h.shared hu hi hheldi)
      · exact overlay_of_notMem hheldi

theorem SerialInv.close (h : SerialInv prog mem₀ s abs) {p : Prog ι σ μ α}
    (hp : (s.clients t).phase = .closing c p) {s' : Sys n ι σ μ κ α}
    (hs : s.close t c p = some s') : SerialInv prog mem₀ s' abs := by
  have hc := h.client t
  unfold ClientInv at hc
  rw [hp] at hc
  obtain ⟨htail, a, hreply, hmem⟩ := hc
  have hidle : ¬ (s.clients t).Active := by rintro ⟨d, q, hq⟩; rw [hp] at hq; cases hq
  cases p with
  | done b =>
    obtain rfl := Option.some.inj hs
    exact h.rephase rfl rfl rfl htail rfl (fun ha => absurd ha hidle)
  | send x k =>
    obtain rfl := Option.some.inj hs
    exact h.rephase rfl rfl rfl ⟨htail, a, hreply, hmem⟩ rfl (fun ha => absurd ha hidle)
  | unlock i k =>
    obtain rfl := Option.some.inj hs
    refine h.setClient rfl rfl rfl ⟨htail.2, a, hreply, hmem⟩ (fun _ _ ha => absurd ha hidle) ?_
    intro u j m hu
    constructor
    · intro hw
      exact h.exclusive t u j m (Ne.symm hu) (mem_release.mp hw).1
    · intro hw hm
      exact h.exclusive u t j m hu hw (mem_release.mp hm).1
  | hang => exact htail.elim
  | lock i m k => exact htail.elim
  | read i k => exact htail.elim
  | update i f k => exact htail.elim

/-- The serial cells after a step of client `t`: those the committed call
leaves, if the step commits one. -/
def Catches (prog : κ → Prog ι σ μ α) (s : Sys n ι σ μ κ α) (t : Fin n) (abs abs' : ι → σ) : Prop :=
  (∃ c p a, (s.clients t).phase = .active c p ∧ Tail (s.clients t).held p ∧
    (prog c).run abs = some (a, abs', p.pending)) ∨
  abs' = abs ∧ ∀ c p, (s.clients t).phase = .active c p → ¬ Tail (s.clients t).held p

theorem SerialInv.step_commit (h : SerialInv prog mem₀ s abs) {p : Prog ι σ μ α}
    (hp : (s.clients t).phase = .active c p) (htail : Tail (s.clients t).held p)
    {s' : Sys n ι σ μ κ α} (hs : (s.commit t c p).close t c p = some s') :
    ∃ abs', SerialInv prog mem₀ s' abs' ∧ Catches prog s t abs abs' := by
  obtain ⟨a, abs', hrun, hcommit⟩ := h.commit hp htail
  exact ⟨abs', hcommit.close (by simp [Sys.commit, Sys.setClient]) hs,
    Or.inl ⟨c, p, a, hp, htail, hrun⟩⟩

/-- A step keeps the invariant, and its serial cells only follow commits. -/
theorem SerialInv.step (h : SerialInv prog mem₀ s abs) (hdisc : ∀ d, Disciplined [] (prog d))
    {s' : Sys n ι σ μ κ α} (hs : s.step prog t = some s') :
    ∃ abs', SerialInv prog mem₀ s' abs' ∧ Catches prog s t abs abs' := by
  unfold Sys.step at hs
  have hc := h.client t
  unfold ClientInv at hc
  cases hp : (s.clients t).phase with
  | idle =>
    rw [hp] at hs
    cases htodo : (s.clients t).todo with
    | nil => rw [htodo] at hs; cases hs
    | cons d ds =>
      rw [htodo] at hs
      obtain rfl := Option.some.inj hs
      refine ⟨abs, h.start hdisc hp rfl rfl rfl, Or.inr ⟨rfl, ?_⟩⟩
      intro e q hq; rw [hp] at hq; cases hq
  | closing d p =>
    rw [hp] at hs
    refine ⟨abs, h.close hp hs, Or.inr ⟨rfl, ?_⟩⟩
    intro e q hq; rw [hp] at hq; cases hq
  | active d p =>
    rw [hp] at hs hc
    -- a program before its last access is no tail
    have hstay : (∀ l, ¬ Tail l p) → Catches prog s t abs abs := by
      refine fun hnot => Or.inr ⟨rfl, fun e q hq => ?_⟩
      rw [hp] at hq
      obtain ⟨rfl, rfl⟩ := Phase.active.inj hq
      exact hnot _
    cases p with
    | hang =>
      obtain rfl := Option.some.inj hs
      exact ⟨abs, h, hstay fun _ => id⟩
    | lock i m k =>
      dsimp only at hs
      split at hs
      · rename_i hg
        obtain rfl := Option.some.inj hs
        exact ⟨abs, h.lock hp hg, hstay fun _ => id⟩
      · cases hs
    | read i k =>
      obtain rfl := Option.some.inj hs
      exact ⟨abs, h.read hp, hstay fun _ => id⟩
    | update i f k =>
      obtain rfl := Option.some.inj hs
      exact ⟨abs, h.update hp, hstay fun _ => id⟩
    | done b => exact h.step_commit hp hc.1 hs
    | unlock i k => exact h.step_commit hp hc.1 hs
    | send x k => exact h.step_commit hp hc.1 hs

end Step

/-- In a quiet state the real cells are the serial ones. -/
theorem SerialInv.quiet {mem₀ : ι → σ} {s : Sys n ι σ μ κ α} {abs : ι → σ}
    (h : SerialInv prog mem₀ s abs) (hq : s.Quiet) : s.mem = abs := by
  funext i
  refine h.agrees i fun t ha => ?_
  obtain ⟨c, p, hp⟩ := ha
  rw [hq t] at hp
  cases hp

end TwoPhase
