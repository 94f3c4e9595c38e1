import Mathlib.Data.List.Perm.Subperm
import TitanKv.Lib.Runs
import TitanKv.Server

/-! # The table of connected clients

The accept loop enters a client under its address, and the guard of its handler takes
the address out again when the handler ends, by whatever way. The table never lists a
client whose handler has ended. It lists all others as long as no connection comes from
an address whose earlier handler has yet to notice that its own is gone: then the new
entry replaces the old one, and the guard of the old handler takes it out. -/

namespace TitanKv
open Runs

/-- The client map, the id counter, and the handlers that run, with what was entered for
each of them. -/
structure Registry where
  activeClients : AList fun _ : Text => ClientInfo
  nextClientId : Nat
  handlers : List ClientInfo

inductive RegistryEvent where
  | accept (socketAddr : Text) (now : SystemTime)
  | leave (i : Nat)

namespace Registry

def new : Registry where
  activeClients := ∅
  nextClientId := 1
  handlers := []

/-- The arm of the accept loop; the counter wraps around. -/
def accept (s : Registry) (socketAddr : Text) (now : SystemTime) : Registry :=
  let info : ClientInfo := ⟨s.nextClientId, socketAddr, now⟩
  { activeClients := s.activeClients.insert socketAddr info
    nextClientId := (s.nextClientId + 1) % 2 ^ 64
    handlers := s.handlers ++ [info] }

/-- A handler returns or panics, and its guard is dropped. -/
def leave (s : Registry) (i : Nat) : Option Registry :=
  s.handlers[i]?.map fun info =>
    { s with activeClients := s.activeClients.erase info.addr, handlers := s.handlers.eraseIdx i }

def step (s : Registry) : RegistryEvent → Option Registry
  | .accept socketAddr now => some (s.accept socketAddr now)
  | .leave i => s.leave i

/-- The values of the map, which `CLIENT LIST` shows and `INFO` counts. -/
def listed (s : Registry) : List ClientInfo := s.activeClients.entries.map Sigma.snd

def ctx (s : Registry) (now : SystemTime) : Ctx := ⟨now, s.listed⟩

/-- No handler that runs has the address of the connection that comes in. -/
def Fresh (s : Registry) : RegistryEvent → Prop
  | .accept socketAddr _ => ∀ info ∈ s.handlers, info.addr ≠ socketAddr
  | .leave _ => True

/-- Every entry is under its address, and its handler runs. -/
structure Sound (s : Registry) : Prop where
  keyed : ∀ e ∈ s.activeClients.entries, e.1 = e.2.addr
  serving : ∀ info ∈ s.listed, info ∈ s.handlers

variable {s s' : Registry} {e : RegistryEvent} {info : ClientInfo} {socketAddr : Text}
  {now : SystemTime} {i : Nat}

theorem Sound.addrs (h : s.Sound) : s.listed.map ClientInfo.addr = s.activeClients.keys := by
  rw [listed, List.map_map]
  exact List.map_congr_left fun e he => (h.keyed e he).symm

/-- One entry for an address. -/
theorem Sound.nodup_addrs (h : s.Sound) : (s.listed.map ClientInfo.addr).Nodup :=
  h.addrs ▸ s.activeClients.keys_nodup

theorem Sound.subperm (h : s.Sound) : s.listed.Subperm s.handlers :=
  h.nodup_addrs.of_map.subperm h.serving

theorem sound_new : new.Sound where
  keyed _ he := absurd he List.not_mem_nil
  serving _ h := absurd h List.not_mem_nil

theorem leave_some (h : s.leave i = some s') : ∃ info, s.handlers.Perm (info :: s'.handlers) ∧
    s'.activeClients = s.activeClients.erase info.addr := by
  obtain ⟨info, hinfo, rfl⟩ := Option.map_eq_some_iff.mp h
  obtain ⟨hi, rfl⟩ := List.getElem?_eq_some_iff.mp hinfo
  exact ⟨_, (List.getElem_cons_eraseIdx_perm hi).symm, rfl⟩

theorem Sound.mem_listed (h : s.Sound) :
    info ∈ s.listed ↔ s.activeClients.lookup info.addr = some info := by
  rw [← Option.mem_def, AList.mem_lookup_iff]
  refine ⟨fun hmem => ?_, fun hmem => List.mem_map.mpr ⟨_, hmem, rfl⟩⟩
  obtain ⟨e, he, rfl⟩ := List.mem_map.mp hmem
  rw [← h.keyed e he]
  exact he

theorem Sound.accept (h : s.Sound) : (s.accept socketAddr now).Sound := by
  have hold : ∀ e ∈ (s.activeClients.erase socketAddr).entries, e ∈ s.activeClients.entries :=
    fun e he => (List.kerase_sublist _ _).subset he
  refine ⟨List.forall_mem_cons.mpr ⟨rfl, fun e he => h.keyed e (hold e he)⟩,
    List.forall_mem_cons.mpr ⟨?_, fun info hinfo => ?_⟩⟩
  · exact List.mem_append_right _ List.mem_cons_self
  · obtain ⟨e, he, rfl⟩ := List.mem_map.mp hinfo
    exact List.mem_append_left _ (h.serving _ (List.mem_map_of_mem (hold e he)))

theorem Sound.leave (h : s.Sound) (hs : s.leave i = some s') : s'.Sound := by
  obtain ⟨gone, hperm, htable⟩ := leave_some hs
  have hold : ∀ e ∈ s'.activeClients.entries, e ∈ s.activeClients.entries := by
    rw [htable]
    exact fun e he => (List.kerase_sublist _ _).subset he
  have hkeyed : ∀ e ∈ s'.activeClients.entries, e.1 = e.2.addr := fun e he => h.keyed e (hold e he)
  refine ⟨hkeyed, fun info hinfo => ?_⟩
  obtain ⟨e, he, rfl⟩ := List.mem_map.mp hinfo
  refine (List.mem_cons.mp
    (hperm.mem_iff.mp (h.serving _ (List.mem_map_of_mem (hold e he))))).resolve_left ?_
  -- the guard has taken out what is under the address of its own handler
  rintro rfl
  have hmem : e.2.addr ∈ s'.activeClients.keys := hkeyed e he ▸ List.mem_map_of_mem he
  rw [htable, ← AList.mem_keys, AList.mem_erase] at hmem
  exact hmem.1 rfl

theorem Sound.step (h : s.Sound) (hs : s.step e = some s') : s'.Sound := by
  cases e with
  | accept socketAddr now => exact Option.some.inj hs ▸ h.accept
  | leave i => exact h.leave hs

/-- A step from a table that lists every client. -/
theorem Sound.listed_step (h : s.Sound) (hall : s.listed.Perm s.handlers)
    (hs : s.step e = some s') :
    s'.listed.Perm s'.handlers ↔ s.Fresh e := by
  cases e with
  | accept socketAddr now =>
    obtain rfl := Option.some.inj hs
    have haddrs := h.addrs
    constructor
    · intro hperm info hinfo hsame
      have hnodup := (hperm.map ClientInfo.addr).nodup_iff.mp h.accept.nodup_addrs
      rw [Registry.accept, List.map_append, List.nodup_append] at hnodup
      exact hnodup.2.2 _ (List.mem_map_of_mem hinfo) _ List.mem_cons_self hsame
    · intro hfresh
      have hnew : socketAddr ∉ s.activeClients := by
        rw [AList.mem_keys, ← haddrs]
        intro hmem
        obtain ⟨info, hinfo, heq⟩ := List.mem_map.mp hmem
        exact hfresh info (h.serving info hinfo) heq
      have hlisted : (s.accept socketAddr now).listed =
          ⟨s.nextClientId, socketAddr, now⟩ :: s.listed := by
        rw [listed, Registry.accept, AList.entries_insert_of_notMem hnew]
        rfl
      rw [hlisted]
      exact (hall.cons _).trans (List.perm_append_singleton _ _).symm
  | leave i =>
    refine iff_of_true ?_ trivial
    obtain ⟨gone, hperm, htable⟩ := leave_some hs
    have hgone : gone ∈ s.listed := hall.mem_iff.mpr (hperm.mem_iff.mpr List.mem_cons_self)
    have hentry : ⟨gone.addr, gone⟩ ∈ s.activeClients.entries :=
      AList.mem_lookup_iff.mp (h.mem_listed.mp hgone)
    obtain ⟨info, before, behind, -, hentries, herase⟩ :=
      List.exists_of_kerase (List.mem_map_of_mem hentry)
    obtain rfl : info = gone := by
      have hmem : ⟨gone.addr, info⟩ ∈ s.activeClients.entries := hentries ▸ by simp
      exact s.activeClients.nodupKeys.eq_of_mk_mem hmem hentry
    have hleft : s'.listed = (before ++ behind).map Sigma.snd := by
      rw [listed, htable]
      exact congrArg (List.map Sigma.snd) herase
    have hold : s.listed.Perm (info :: s'.listed) := by
      rw [listed, hentries, hleft]
      exact List.perm_middle.map fun e : (_ : Text) × ClientInfo => e.2
    exact (hold.symm.trans (hall.trans hperm)).cons_inv

theorem sound_reachable (hs : Reachable step anyStep new s) : s.Sound :=
  hs.inv sound_new fun _ _ _ h _ he => h.step he

/-- In all states of a run `CLIENT LIST` shows the clients that are served, each once,
exactly if no connection of the run comes from an address whose handler runs; and exactly
then `INFO` counts them right in all states. -/
theorem clients_listed {es : List RegistryEvent} (now : SystemTime)
    (hrun : run step new es = some s) :
    ((∀ fs, fs <+: es → ∀ t, run step new fs = some t → (t.ctx now).clients.Perm t.handlers) ↔
      AllOk step Fresh new es) ∧
    ((∀ fs, fs <+: es → ∀ t, run step new fs = some t →
      (t.ctx now).clients.length = t.handlers.length) ↔
      AllOk step Fresh new es) := by
  have hlisted : (∀ fs, fs <+: es → ∀ t, run step new fs = some t → t.listed.Perm t.handlers) ↔
      AllOk step Fresh new es :=
    allOk_iff (fun _ _ _ h he => h.step he) (fun _ _ _ h hall he => h.listed_step hall he)
      sound_new .nil hrun
  refine ⟨hlisted, ⟨fun h => hlisted.mp fun fs hfs t ht => ?_, fun h fs hfs t ht => ?_⟩⟩
  · exact (sound_reachable (.run .init fs ht)).subperm.perm_of_length_le (h fs hfs t ht).ge
  · exact (hlisted.mpr h fs hfs t ht).length_eq

/-- A client whose connection broke comes again from the same port before its first
handler has noticed. -/
def comesAgain : List RegistryEvent :=
  [.accept ['a'] .unixEpoch, .accept ['a'] .unixEpoch, .leave 0]

theorem clients_listed_again :
    ∃ s, run step new comesAgain = some s ∧ s.handlers.length = 1 ∧ s.listed = [] ∧
    ¬ AllOk step Fresh new comesAgain := by
  refine ⟨_, rfl, rfl, rfl, fun hok => ?_⟩
  have hcount := (clients_listed .unixEpoch rfl).2.mpr hok comesAgain List.prefix_rfl _ rfl
  exact absurd hcount (by decide)

end Registry

end TitanKv
