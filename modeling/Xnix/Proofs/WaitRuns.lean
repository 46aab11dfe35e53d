import Xnix.Proofs.Waiting

/-!
# Runs of parents and children

Each step of the machine keeps the lists of children and the waiters in order where it meets
`WaitCalm`.
-/

namespace Xnix

open Function List Family WaitPc WaitSys

variable {Pid Tid : Type} {p : Pid} {c : Pid}

section Steps
variable {s s' : WaitSys Pid Tid} {Q : Pid → List Pid} {t : Tid} [DecidableEq Pid]

def WaitInv (s : WaitSys Pid Tid) : Prop := ∃ Q, Reaping s Q ∧ Waiting s Q

theorem mem_adopted {q i d : Pid} (hi : i ≠ p) :
    d ∈ update (update Q i ((Q p).reverse ++ Q i)) p [] q ↔
      q ≠ p ∧ (d ∈ Q q ∨ q = i ∧ d ∈ Q p) := by
  by_cases hq : q = p
  · subst hq
    simp
  · rw [update_of_ne hq]
    by_cases hqi : q = i
    · subst hqi
      simp [hq, or_comm]
    · simp [hq, hqi]

theorem WaitInv.spawn (h : WaitInv s) (hfree : (s.proc c).state = .free) :
    WaitInv { s.modify c fun pr => { pr with state := .running, parent := some (s.owner t) } with
      kids := s.kids.push (s.owner t) c
      log := .spawned (s.owner t) c :: s.log } := by
  obtain ⟨Q, hR, hW⟩ := h
  have hnew : ∀ p, c ∉ Q p := fun p hc => hR.born p c hc hfree
  generalize hs' :
    ({ s.modify c fun pr => { pr with state := .running, parent := some (s.owner t) } with
      kids := s.kids.push (s.owner t) c
      log := .spawned (s.owner t) c :: s.log } : WaitSys Pid Tid) = s'
  have hproc : s'.proc = update s.proc c
      { s.proc c with state := .running, parent := some (s.owner t) } := by
    rw [← hs']
    rfl
  obtain ⟨hself, hother⟩ := update_apart hproc
  have hpc : s'.pc = s.pc := by rw [← hs']; rfl
  have howner : s'.owner = s.owner := by rw [← hs']; rfl
  have hlog : s'.log = .spawned (s.owner t) c :: s.log := by rw [← hs']
  have hmem : ∀ p d, d ∈ update Q (s.owner t) (c :: Q (s.owner t)) p ↔
    d ∈ Q p ∨ p = s.owner t ∧ d = c := by
    intro p d
    by_cases hp : p = s.owner t
    · rw [hp, update_self, mem_cons]
      simp [or_comm]
    · rw [update_of_ne hp]
      simp [hp]
  have hzombie : ∀ d, (s.proc d).state = .zombie → d ≠ c := by
    rintro d hd rfl
    rw [hfree] at hd
    cases hd
  refine ⟨_, ⟨?_, fun p d hd => ?_, fun p d hd => ?_, by rw [hpc]; exact hR.seen, fun u d hu => ?_,
    fun u d status hm => ?_, by rw [hlog]; exact hR.once, fun p d hm => ?_⟩,
    hW.frame (update Q (s.owner t) (c :: Q (s.owner t))) howner (fun p d hd hz => ?_)
      (fun u hu => ?_) (by rw [hpc]; exact fun _ _ => id) (fun d => ?_) fun u => ?_⟩
  · rw [← hs']
    exact hR.linked.push hnew
  · rcases (hmem p d).mp hd with hd | ⟨rfl, rfl⟩
    · rw [hother d fun hdc => hnew p (hdc ▸ hd)]
      exact hR.parent p d hd
    · rw [hself]
  · rcases (hmem p d).mp hd with hd | ⟨rfl, rfl⟩
    · rw [hother d fun hdc => hnew p (hdc ▸ hd)]
      exact hR.born p d hd
    · rw [hself]
      nofun
  · rw [hpc] at hu ⊢
    obtain ⟨hdQ, hdz, hdlog, huniq⟩ := hR.taken u d hu
    have hdc := hzombie d hdz
    rw [hother d hdc, hlog]
    refine ⟨fun p hdp => ?_, hdz, fun v status hm => ?_, huniq⟩
    · rcases (hmem p d).mp hdp with hdp | ⟨-, hdp⟩
      · exact hdQ p hdp
      · exact hdc hdp
    · rcases mem_cons.mp hm with heq | hm
      · cases heq
      · exact hdlog v status hm
  · rw [hlog] at hm
    rcases mem_cons.mp hm with heq | hm
    · cases heq
    · obtain ⟨hdQ, hdz, hdset⟩ := hR.reaped u d status hm
      have hdc := hzombie d hdz
      unfold Settled
      rw [hother d hdc, hpc, howner]
      refine ⟨fun p hdp => ?_, hdz, hdset⟩
      rcases (hmem p d).mp hdp with hdp | ⟨-, hdp⟩
      · exact hdQ p hdp
      · exact hdc hdp
  · rw [hlog] at hm ⊢
    rw [hpc]
    rcases mem_cons.mp hm with heq | hm
    · cases heq
      exact .inl ⟨_, (hmem _ _).mpr (.inr ⟨rfl, rfl⟩)⟩
    · rcases hR.kept p d hm with ⟨q, hq⟩ | hrep | ⟨u, status, hrep⟩
      · exact .inl ⟨q, (hmem q d).mpr (.inl hq)⟩
      · exact .inr (.inl hrep)
      · exact .inr (.inr ⟨u, status, mem_cons_of_mem _ hrep⟩)
  · have hdc : d ≠ c := by
      rintro rfl
      rw [hself] at hz
      cases hz
    rw [hother d hdc] at hz
    exact ⟨((hmem p d).mp hd).resolve_right fun hd => hdc hd.2, hz⟩
  · rw [hpc] at hu
    rw [update_field waitChan hproc rfl, update_field threads hproc rfl]
    exact hW.first u hu
  · unfold Exiting
    rw [hpc, howner]
    exact id
  · unfold Roused
    rw [hpc, show s'.sched = s.sched by rw [← hs']; rfl]
    exact id

theorem WaitInv.modify {f : Family Pid Tid → Family Pid Tid} (h : WaitInv s)
    (hparent : (f (s.proc p)).parent = (s.proc p).parent)
    (hcode : (f (s.proc p)).exitCode = (s.proc p).exitCode)
    (hzombie : (f (s.proc p)).state = .zombie ↔ (s.proc p).state = .zombie)
    (hborn : (s.proc p).state ≠ .free → (f (s.proc p)).state ≠ .free)
    (hfirst : ∀ u, s.owner u = p → (s.pc u).waiting →
    (f (s.proc p)).waitChan = (s.proc p).waitChan ∧
      (f (s.proc p)).threads = (s.proc p).threads) : WaitInv (s.modify p f) := by
  obtain ⟨Q, hR, hW⟩ := h
  have hstate : ∀ c, (((s.modify p f).proc c).state = .zombie ↔ (s.proc c).state = .zombie) ∧
      ((s.proc c).state ≠ .free → ((s.modify p f).proc c).state ≠ .free) := by
    intro c
    by_cases hc : c = p
    · rw [hc, proc_modify_self]
      exact ⟨hzombie, hborn⟩
    · rw [proc_modify_of_ne s hc]
      exact ⟨Iff.rfl, id⟩
  refine ⟨Q, hR.change rfl rfl (fun c => (hstate c).1.mpr) (fun c => (hstate c).2)
    (proc_modify parent s p hparent) (fun _ _ _ => .inr) (fun _ _ => id) fun c status _ hset =>
      ⟨(proc_modify exitCode s p hcode c).trans hset.1, hset.2⟩,
    hW.frame Q rfl (fun q c hc hz => ⟨hc, (hstate c).1.mp hz⟩) (fun u hu => ?_) (fun _ _ => id)
      (fun _ => id) fun _ => id⟩
  have hwait := hW.first u hu
  by_cases hp : s.owner u = p
  · obtain ⟨hchan, hthreads⟩ := hfirst u hp hu
    rw [hp] at hwait ⊢
    rwa [proc_modify_self, hchan, hthreads]
  · rwa [proc_modify_of_ne s hp]

theorem WaitInv.setState (h : WaitInv s) (st : ProcState)
    (hold : (s.proc p).state ≠ .zombie) (hst : st ≠ .zombie) (hfree : st ≠ .free) :
    WaitInv (s.modify p fun pr => { pr with state := st }) :=
  h.modify rfl rfl (iff_of_false hst hold) (fun _ => hfree) fun _ _ _ => ⟨rfl, rfl⟩

theorem WaitInv.setThreads {f : List Tid → List Tid} (h : WaitInv s)
    (hnobody : ∀ u, s.owner u = p → ¬ (s.pc u).waiting) :
    WaitInv (s.modify p fun pr => { pr with threads := f pr.threads }) :=
  h.modify rfl rfl Iff.rfl id fun u hu hw => absurd hw (hnobody u hu)

variable [DecidableEq Tid] {target : Option Pid}

theorem WaitInv.enter {nohang : Bool} (h : WaitInv s) (hpc : s.pc t = .user)
    (hhead : (s.proc (s.owner t)).threads.head? = some t) :
    WaitInv ((s.modify (s.owner t) fun pr => { pr with waitChan := true }).setPc t
      (.scan target nohang)) := by
  obtain ⟨Q, hR, hW⟩ := h
  have hsame := proc_setChan s (s.owner t) true
  have hchan : ∀ p, (s.proc p).waitChan = true ∨ p = s.owner t →
      ((s.modify (s.owner t) fun pr => { pr with waitChan := true }).proc p).waitChan = true := by
    intro p hp
    by_cases hpt : p = s.owner t
    · rw [hpt, proc_modify_self]
    · rw [proc_modify_of_ne s hpt]
      exact hp.resolve_right hpt
  refine ⟨Q, hR.move rfl rfl rfl rfl (fun c => (hsame c).1) (fun c => (hsame c).2.1)
    (fun c => (hsame c).2.2.1) (by simp [hpc]) nofun nofun,
    hW.move rfl rfl (fun c => (hsame c).1) (fun _ _ => rfl) (fun u _ hu => ?_) (fun _ => ?_)
    (by simp [hpc, exiting]) nofun⟩
  · obtain ⟨huchan, huhead⟩ := hW.first u hu
    exact ⟨hchan _ (.inl huchan), (congrArg head? (hsame _).2.2.2).trans huhead⟩
  · exact ⟨hchan _ (.inr rfl), (congrArg head? (hsame _).2.2.2).trans hhead⟩

theorem WaitInv.leave (h : WaitInv s) (hpc : s.pc t = .leave ∨ ∃ c, s.pc t = .report c .stopped) :
    WaitInv (s.leave t) := by
  obtain ⟨Q, hR, hW⟩ := h
  have hsame := proc_setChan s (s.owner t) false
  have hwait : (s.pc t).waiting := by
    rcases hpc with hpc | ⟨c, hpc⟩ <;> rw [hpc] <;> trivial
  refine ⟨Q, hR.move rfl rfl rfl rfl (fun c => (hsame c).1) (fun c => (hsame c).2.1)
    (fun c => (hsame c).2.2.1) (fun c => ?_) nofun nofun,
    hW.move rfl rfl (fun c => (hsame c).1) (fun _ _ => rfl) (fun u hut hu => ?_) (fun hb => hb.elim)
    (fun hx => ?_) nofun⟩
  · rcases hpc with hpc | ⟨c', hpc⟩ <;> rw [hpc] <;> nofun
  · have hne : s.owner u ≠ s.owner t := fun heq => hut (hW.eq_of_owner hwait hu heq)
    have hsame : (s.leave t).proc (s.owner u) = s.proc (s.owner u) := update_of_ne hne ..
    rw [hsame]
    exact hW.first u hu
  · rcases hpc with hpc | ⟨c', hpc⟩ <;> rw [hpc] at hx <;> exact hx.elim

theorem WaitInv.reap (h : WaitInv s) (hpc : s.pc t = .report c .zombie)
    (hset : Settled s c (s.proc c).exitCode) : WaitInv (s.report t c) := by
  obtain ⟨Q, hR, hW⟩ := h
  obtain ⟨hQ, hz, hfresh, huniq⟩ := hR.taken t c hpc
  have hwait : (s.pc t).waiting := by
    rw [hpc]
    trivial
  have heq : s.report t c =
      { (s.modify c fun pr => { pr with parent := none }).leave t with
        kids := s.kids.clear c
        log := .reaped t c (s.proc c).exitCode :: s.log } := by
    rw [WaitSys.report, hz]
    exact if_neg nofun
  have hsame : ∀ p, ((s.report t c).proc p).state = (s.proc p).state ∧
      ((s.report t c).proc p).exitCode = (s.proc p).exitCode ∧
      ((s.report t c).proc p).threads = (s.proc p).threads ∧
      (p ≠ c → ((s.report t c).proc p).parent = (s.proc p).parent) ∧
      (p ≠ s.owner t → ((s.report t c).proc p).waitChan = (s.proc p).waitChan) := by
    intro p
    have hchan := proc_setChan (s.modify c fun pr => { pr with parent := none }) (s.owner t) false p
    rw [heq]
    refine ⟨hchan.1.trans (proc_modify state s c rfl p),
      hchan.2.2.1.trans (proc_modify exitCode s c rfl p),
      hchan.2.2.2.trans (proc_modify threads s c rfl p), fun hp => ?_, fun hp => ?_⟩
    · refine hchan.2.1.trans ?_
      rw [proc_modify_of_ne s hp]
    · have hleft : ((s.modify c fun pr => { pr with parent := none }).leave t).proc p =
          (s.modify c fun pr => { pr with parent := none }).proc p := update_of_ne hp ..
      exact (congrArg waitChan hleft).trans (proc_modify waitChan s c rfl p)
  have hpc' : (s.report t c).pc = update s.pc t .user := by
    rw [heq]
    rfl
  have hlog : (s.report t c).log = .reaped t c (s.proc c).exitCode :: s.log := by rw [heq]
  have howner : (s.report t c).owner = s.owner := by
    rw [heq]
    rfl
  refine ⟨Q, ⟨?_, fun p d hd => ?_, fun p d hd => ?_, fun u d seen hu => ?_, fun u d hu => ?_,
    fun u d status hm => ?_, ?_, fun p d hm => ?_⟩, ?_⟩
  · rw [heq]
    exact hR.linked.clear hQ
  · have hdc : d ≠ c := fun hdc => hQ p (hdc ▸ hd)
    rw [(hsame d).2.2.2.1 hdc]
    exact hR.parent p d hd
  · rw [(hsame d).1]
    exact hR.born p d hd
  · exact hR.seen u d seen (of_update (· = _) hpc' hu nofun).2
  · obtain ⟨hut, hold⟩ := of_update (· = _) hpc' hu nofun
    obtain ⟨hdQ, hdz, hdlog, hduniq⟩ := hR.taken u d hold
    have hdc : d ≠ c := by
      rintro rfl
      exact hut (huniq u hold)
    rw [(hsame d).1, hlog]
    refine ⟨hdQ, hdz, fun v status hm => ?_, fun v hv => ?_⟩
    · rcases mem_cons.mp hm with heq' | hm
      · cases heq'
        exact hdc rfl
      · exact hdlog v status hm
    · exact hduniq v (of_update (· = _) hpc' hv nofun).2
  · have hsettled : ∀ d status, Settled s d status → Settled (s.report t c) d status := by
      intro d status hd
      refine ⟨(hsame d).2.1.trans hd.1,
        fun x k hx hk => hd.2 x k ?_ (of_update (· = _) hpc' hk nofun).2⟩
      rwa [howner] at hx
    rw [hlog] at hm
    rw [(hsame d).1]
    rcases mem_cons.mp hm with heq' | hm
    · cases heq'
      exact ⟨hQ, hz, hsettled c _ hset⟩
    · obtain ⟨hdQ, hdz, hdset⟩ := hR.reaped u d status hm
      exact ⟨hdQ, hdz, hsettled d status hdset⟩
  · rw [hlog]
    refine nodup_cons.mpr ⟨fun hm => ?_, hR.once⟩
    obtain ⟨e, he, hc⟩ := mem_filterMap.mp hm
    cases e with
    | spawned => cases hc
    | reaped u d status =>
      cases hc
      exact hfresh u status he
  · rw [hlog] at hm ⊢
    rcases mem_cons.mp hm with heq' | hm
    · cases heq'
    · rcases hR.kept p d hm with hq | ⟨u, hu⟩ | ⟨u, status, hu⟩
      · exact .inl hq
      · by_cases hut : u = t
        · subst hut
          rw [hpc] at hu
          cases hu
          exact .inr (.inr ⟨u, _, mem_cons_self ..⟩)
        · exact .inr (.inl ⟨u, by rwa [hpc', update_of_ne hut]⟩)
      · exact .inr (.inr ⟨u, status, mem_cons_of_mem _ hu⟩)
  · refine hW.move hpc' howner (fun d => (hsame d).1)
      (fun u _ => by rw [heq]; rfl) (fun u hut hu => ?_) (fun hb => hb.elim)
      (by simp [hpc, exiting]) nofun
    have hne : s.owner u ≠ s.owner t := fun heq => hut (hW.eq_of_owner hwait hu heq)
    rw [(hsame _).2.2.2.2 hne, (hsame _).2.2.1]
    exact hW.first u hu

theorem WaitInv.block (h : WaitInv s) (hpc : s.pc t = .block target) :
    WaitInv (s.block t target) := by
  obtain ⟨Q, hR, hW⟩ := h
  have hwait : (s.pc t).waiting := by
    rw [hpc]
    trivial
  refine ⟨Q, hR.move rfl rfl rfl rfl (fun _ => rfl) (fun _ => rfl) (fun _ => rfl) (by simp [hpc])
    (fun c seen hb => ?_) (fun k hb => ?_), hW.move rfl rfl (fun _ => rfl)
    (fun u hu => update_of_ne hu ..) (fun u _ hu => hW.first u hu) (fun _ => hW.first t hwait)
    (by simp [hpc, exiting]) fun target' c hb hc htar hz => ?_⟩
  · revert hb
    split <;> nofun
  · revert hb
    split <;> nofun
  · split at hb
    · rcases hb with hb | hb <;> cases hb
    · rename_i hp
      rcases hb with hb | hb <;> cases hb
      rcases hW.roused t target c (.inl hpc) hc htar hz with hx | hx
      · exact .inl hx
      · exact absurd (hx.1 target hpc) hp

theorem WaitInv.resume {w : Waiter} (h : WaitInv s) (hpc : s.pc t = .asleep target) :
    WaitInv { s.setPc t (.scan target false) with sched := update s.sched t w } := by
  obtain ⟨Q, hR, hW⟩ := h
  have hwait : (s.pc t).waiting := by
    rw [hpc]
    trivial
  exact ⟨Q, hR.move rfl rfl rfl rfl (fun _ => rfl) (fun _ => rfl) (fun _ => rfl) (by simp [hpc])
    nofun nofun, hW.move rfl rfl (fun _ => rfl) (fun u hu => update_of_ne hu ..)
    (fun u _ hu => hW.first u hu) (fun _ => hW.first t hwait) (by simp [hpc, exiting]) nofun⟩

theorem Reaping.take {L : Lib.Links Pid Pid} (h : Reaping s Q) (hc : c ∈ Q p)
    (hz : (s.proc c).state = .zombie) (hold : ∀ d, s.pc t ≠ .report d .zombie)
    (hL : Lib.Linked L (update Q p ((Q p).erase c))) :
    Reaping ({ s with kids := L }.setPc t (.report c .zombie))
      (update Q p ((Q p).erase c)) := by
  have hsub : ∀ q d, d ∈ update Q p ((Q p).erase c) q → d ∈ Q q :=
    fun q d => Lib.mem_of_mem_update fun _ => mem_of_mem_erase
  obtain ⟨hmem, hgone⟩ := h.linked.mem_erase_iff hc
  have hself : ({ s with kids := L }.setPc t (.report c .zombie)).pc t = .report c .zombie :=
    update_self ..
  have hother : ∀ u, u ≠ t → ({ s with kids := L }.setPc t (.report c .zombie)).pc u = s.pc u :=
    fun u hu => update_of_ne hu ..
  refine ⟨hL, fun q d hd => h.parent q d (hsub q d hd), fun q d hd => h.born q d (hsub q d hd),
    fun u d seen hu => ?_, fun u d hu => ?_, fun u d status hm => ?_, h.once, fun q d hm => ?_⟩
  · by_cases hut : u = t
    · rw [hut, hself] at hu
      cases hu
      exact .inr rfl
    · rw [hother u hut] at hu
      exact h.seen u d seen hu
  · have hnoone : ∀ v, s.pc v ≠ .report c .zombie := fun v hv => (h.taken v c hv).1 p hc
    by_cases hut : u = t
    · subst hut
      rw [hself] at hu
      cases hu
      refine ⟨hgone, hz, fun v status hm => (h.reaped v c status hm).1 p hc, fun v hv => ?_⟩
      by_contra hvt
      rw [hother v hvt] at hv
      exact hnoone v hv
    · rw [hother u hut] at hu
      obtain ⟨hdQ, hdz, hdlog, hduniq⟩ := h.taken u d hu
      refine ⟨fun q hdq => hdQ q (hsub q d hdq), hdz, hdlog, fun v hv => ?_⟩
      by_cases hvt : v = t
      · rw [hvt, hself] at hv
        cases hv
        exact absurd hu (hnoone u)
      · rw [hother v hvt] at hv
        exact hduniq v hv
  · obtain ⟨hdQ, hdz, hdset⟩ := h.reaped u d status hm
    refine ⟨fun q hdq => hdQ q (hsub q d hdq), hdz, hdset.1, fun x k hx hk => ?_⟩
    exact hdset.2 x k hx (of_update (· = _) rfl hk nofun).2
  · rcases h.kept q d hm with ⟨r, hr⟩ | ⟨u, hu⟩ | hrep
    · by_cases hdc : d = c
      · exact .inr (.inl ⟨t, by rw [hself, hdc]⟩)
      · exact .inl ⟨r, (hmem r d hdc).mpr hr⟩
    · exact .inr (.inl ⟨u, update_of (· = _) rfl hu (hold d)⟩)
    · exact .inr (.inr hrep)

section
variable (h : WaitInv s)
include h

theorem WaitInv.scan [Fintype Pid] {nohang : Bool} (hpc : s.pc t = .scan target nohang)
    (hs : s.scan t target nohang = some s') : WaitInv s' := by
  obtain ⟨Q, hR, hW⟩ := h
  have hwait : (s.pc t).waiting := by
    rw [hpc]
    trivial
  have hmove : ∀ b : WaitPc Pid, b.waiting → (∀ c seen, b = .report c seen → seen = .stopped) →
      (∀ target c, b = .block target ∨ b = .asleep target → c ∈ Q (s.owner t) →
        isTarget target c = true → (s.proc c).state = .zombie → Exiting s c ∨
        Roused (s.setPc t b) t) →
      WaitInv (s.setPc t b) := by
    intro b hb hnew hsleep
    refine ⟨Q, hR.move rfl rfl rfl rfl (fun _ => rfl) (fun _ => rfl) (fun _ => rfl) (by simp [hpc])
      hnew ?_, hW.move rfl rfl (fun _ => rfl) (fun _ _ => rfl) (fun u _ hu => hW.first u hu)
      (fun _ => hW.first t hwait) (by simp [hpc, exiting]) hsleep⟩
    rintro k rfl
    exact hb.elim
  simp only [WaitSys.scan, hR.linked.members, bind, Option.bind_some] at hs
  split at hs
  · rename_i c hfind
    have hc : c ∈ Q (s.owner t) := mem_of_find?_eq_some hfind
    have hfound := find?_some hfind
    split at hs
    · cases hs
      exact hmove _ trivial (fun c' seen hb => by cases hb; rfl) nofun
    · rename_i hns
      have hz : (s.proc c).state = .zombie := by
        simp only [isFound, Bool.and_eq_true, decide_eq_true_eq] at hfound
        exact hfound.2.resolve_left hns
      obtain ⟨L, hun, hL⟩ := hR.linked.unlink (s.owner t) c
      rw [hun] at hs
      cases hs
      refine ⟨_, hR.take hc hz (by simp [hpc]) hL, ?_⟩
      have hW' : Waiting s (update Q (s.owner t) ((Q (s.owner t)).erase c)) := by
        refine hW.frame _ rfl (fun p d hd hdz => ⟨?_, hdz⟩) hW.first (fun _ _ => id) (fun _ => id)
          fun _ => id
        exact Lib.mem_of_mem_update (fun _ => mem_of_mem_erase) hd
      exact hW'.move rfl rfl (fun _ => rfl) (fun _ _ => rfl) (fun u _ hu => hW.first u hu)
        (fun _ => hW.first t hwait) (by simp [hpc, exiting]) nofun
  · rename_i hfind
    split at hs <;> cases hs
    · exact hmove _ trivial nofun nofun
    · refine hmove _ trivial nofun fun target' c hb hc htar hz => ?_
      rcases hb with hb | hb <;> cases hb
      have hno := find?_eq_none.mp hfind c hc
      simp [isFound, htar, hz] at hno

theorem WaitInv.exit {code : ℤ} (hpc : s.pc t = .user)
    (hset : (s.proc (s.owner t)).state = .zombie → Settled s (s.owner t) code) :
    WaitInv ((s.modify (s.owner t) fun pr => { pr with state := .zombie }).setPc t
    (.dying code)) := by
  obtain ⟨Q, hR, hW⟩ := h
  generalize hs' :
    (s.modify (s.owner t) fun pr => { pr with state := .zombie }).setPc t (.dying code) = s'
  have hpc' : s'.pc = update s.pc t (.dying code) := by
    rw [← hs']
    rfl
  have hself : s'.pc t = .dying code := by rw [hpc', update_self]
  have hproc : s'.proc =
    update s.proc (s.owner t) { s.proc (s.owner t) with state := .zombie } := by
    rw [← hs']
    rfl
  have hstate : ∀ c, (s'.proc c).state = if c = s.owner t then .zombie else (s.proc c).state := by
    intro c
    rw [hproc]
    split
    · rename_i hc
      rw [hc, update_self]
    · rename_i hc
      rw [update_of_ne hc]
  have hpar := update_field parent hproc rfl
  have hcode := update_field exitCode hproc rfl
  have hchan := update_field waitChan hproc rfl
  have hthreads := update_field threads hproc rfl
  have howner : s'.owner = s.owner := by rw [← hs']; rfl
  have hsched : s'.sched = s.sched := by rw [← hs']; rfl
  refine ⟨Q, hR.change (by rw [← hs']; rfl) (by rw [← hs']; rfl) (fun c hc => ?_)
    (fun c hc => ?_) hpar
    (fun u c seen hu => .inr ?_) (fun u c hu => ?_) fun c status hz hs => ⟨(hcode c).trans hs.1,
      fun x k hx hk => ?_⟩, fun u hu => ?_, fun u target c hu hc htar hz => ?_⟩
  · rw [hstate, hc, ite_self]
  · rw [hstate]
    split
    · nofun
    · exact hc
  · exact (of_update (· = _) hpc' hu nofun).2
  · exact update_of (· = _) hpc' hu (by rw [hpc]; nofun)
  · rw [howner] at hx
    by_cases hxt : x = t
    · subst hxt
      rw [hself] at hk
      cases hk
      rw [hx] at hset
      exact (hset hz).1.symm.trans hs.1
    · rw [hpc', update_of_ne hxt] at hk
      exact hs.2 x k hx hk
  · rw [howner, hchan, hthreads]
    exact hW.first u (of_update waiting hpc' hu id).2
  · obtain ⟨hut, hu⟩ :=
      of_update (fun pc => pc = .block target ∨ pc = .asleep target) hpc' hu (by simp)
    rw [howner] at hc
    by_cases hct : c = s.owner t
    · refine .inl ⟨t, by rw [howner, hct], ?_⟩
      rw [hself]
      trivial
    · rw [hstate, if_neg hct] at hz
      rcases hW.roused u target c hu hc htar hz with ⟨x, hx, hxe⟩ | hr
      · exact .inl ⟨x, by rwa [howner], update_of exiting hpc' hxe (by rw [hpc]; exact id)⟩
      · refine .inr ?_
        unfold Roused
        rw [hpc', update_of_ne hut, hsched]
        exact hr

theorem WaitInv.dying {code : ℤ} (hpc : s.pc t = .dying code) :
    WaitInv ((s.modify (s.owner t) fun pr => { pr with exitCode := code }).setPc t .orphan) := by
  obtain ⟨Q, hR, hW⟩ := h
  generalize hs' :
    (s.modify (s.owner t) fun pr => { pr with exitCode := code }).setPc t .orphan = s'
  have hpc' : s'.pc = update s.pc t .orphan := by
    rw [← hs']
    rfl
  have hproc : s'.proc =
    update s.proc (s.owner t) { s.proc (s.owner t) with exitCode := code } := by
    rw [← hs']
    rfl
  have hstate := update_field state hproc rfl
  have howner : s'.owner = s.owner := by rw [← hs']; rfl
  refine ⟨Q, hR.change (by rw [← hs']; rfl) (by rw [← hs']; rfl) (fun c hc => (hstate c).trans hc)
    (fun c hc => by rwa [hstate]) (update_field parent hproc rfl) (fun u c seen hu => .inr ?_)
    (fun u c hu => ?_) fun c status _ hs => ⟨?_, fun x k hx hk => ?_⟩,
    hW.move hpc' howner hstate (fun _ _ => by rw [← hs']; rfl) (fun u _ hu => ?_)
      (fun hb => hb.elim) (fun _ => trivial) nofun⟩
  · exact (of_update (· = _) hpc' hu nofun).2
  · exact update_of (· = _) hpc' hu (by rw [hpc]; nofun)
  · rw [hproc]
    by_cases hc : c = s.owner t
    · rw [hc, update_self]
      exact hs.2 t code hc.symm hpc
    · rw [update_of_ne hc]
      exact hs.1
  · rw [howner] at hx
    exact hs.2 x k hx (of_update (· = _) hpc' hk nofun).2
  · rw [update_field waitChan hproc rfl, update_field threads hproc rfl]
    exact hW.first u hu

theorem WaitInv.notify (hpc : s.pc t = .notify) : WaitInv (s.notify t) := by
  obtain ⟨Q, hR, hW⟩ := h
  have hgo : ∀ s1 : WaitSys Pid Tid, Reaping s1 Q → Waiting s1 Q → s1.pc = s.pc →
      s1.owner = s.owner → (∀ u, (s.pc u).waiting → s.owner t ∈ Q (s.owner u) → Roused s1 u) →
      WaitInv (s1.setPc t .user) := by
    intro s1 hR₁ hW₁ hpc1 howner hrouse
    have hother : ∀ u, u ≠ t → (s1.setPc t .user).pc u = s1.pc u := fun u hu => update_of_ne hu ..
    refine ⟨Q, hR₁.move rfl rfl rfl rfl (fun _ => rfl) (fun _ => rfl) (fun _ => rfl)
      (by simp [hpc1, hpc]) nofun nofun, fun u hu => ?_, fun u target c hu hc htar hz => ?_⟩
    · exact hW₁.first u (of_update waiting rfl hu id).2
    · obtain ⟨hut, hu⟩ :=
        of_update (fun pc : WaitPc Pid => pc = .block target ∨ pc = .asleep target) rfl hu (by simp)
      have hkeep : Roused s1 u → Roused (s1.setPc t .user) u := by
        intro hr
        unfold Roused
        rw [hother u hut]
        exact hr
      rcases hW₁.roused u target c hu hc htar hz with ⟨x, hx, hxe⟩ | hr
      · by_cases hxt : x = t
        · refine .inr (hkeep (hrouse u ?_ ?_))
          · rw [← hpc1]
            exact waiting_of_block hu
          · rw [← howner, ← hxt, hx]
            exact hc
        · exact .inl ⟨x, hx, by rw [hother x hxt]; exact hxe⟩
      · exact .inr (hkeep hr)
  unfold WaitSys.notify
  split
  · rename_i p hp
    obtain ⟨hpc1, howner, -⟩ := wakeWaiter_same s p
    refine hgo _ (hR.wakeWaiter p) (hW.wakeWaiter p) hpc1 howner fun u hu hc => ?_
    obtain rfl := Option.some.inj (hp.symm.trans (hR.parent _ _ hc))
    exact roused_wakeWaiter (hW.first u hu)
  · rename_i hp
    refine hgo s hR hW rfl rfl fun u _ hc => ?_
    rw [hR.parent _ _ hc] at hp
    cases hp

/-- `process_reparent_children`: init gets the children, and its waiter is woken for a zombie. -/
theorem WaitInv.reparent [Fintype Pid] {i : Pid} (hi : s.init = some i) (hne : i ≠ p)
    (hs : s.reparent p = some s') : WaitInv s' ∧ s'.pc = s.pc := by
  obtain ⟨Q, hR, hW⟩ := h
  unfold WaitSys.reparent at hs
  split at hs
  · rename_i hnone
    rw [hi] at hnone
    cases hnone
  rename_i j hj
  obtain rfl : i = j := Option.some.inj (hi.symm.trans hj)
  simp only [hR.linked.members, Option.map_some, Option.some.injEq] at hs
  generalize hs1 : ({ s with
      kids := s.kids.adopt p i (Q p)
      proc := fun c => if c ∈ Q p then { s.proc c with parent := some i } else s.proc c } :
      WaitSys Pid Tid) = s1 at hs
  have hsame : ∀ c, (s1.proc c).state = (s.proc c).state ∧
      (s1.proc c).exitCode = (s.proc c).exitCode ∧ (s1.proc c).waitChan = (s.proc c).waitChan ∧
      (s1.proc c).threads = (s.proc c).threads := by
    intro c
    rw [← hs1]
    simp only
    split <;> exact ⟨rfl, rfl, rfl, rfl⟩
  have hpc : s1.pc = s.pc := by rw [← hs1]
  have howner : s1.owner = s.owner := by rw [← hs1]
  have hsched : s1.sched = s.sched := by rw [← hs1]
  have hlog : s1.log = s.log := by rw [← hs1]
  have hgone : ∀ d, (∀ q, d ∉ Q q) → ∀ q,
    d ∉ update (update Q i ((Q p).reverse ++ Q i)) p [] q := by
    intro d hd q hdq
    rcases ((mem_adopted hne).mp hdq).2 with hq | ⟨-, hq⟩
    · exact hd q hq
    · exact hd p hq
  have hR₁ : Reaping s1 (update (update Q i ((Q p).reverse ++ Q i)) p []) := by
    refine ⟨?_, fun q d hd => ?_, fun q d hd => ?_, ?_, fun t c ht => ?_,
      fun t c status hm => ?_, ?_, fun q c hm => ?_⟩
    · rw [← hs1]
      exact hR.linked.adopt hne
    · obtain ⟨hqp, hmem⟩ := (mem_adopted hne).mp hd
      rw [← hs1]
      rcases hmem with hdq | ⟨rfl, hdp⟩
      · have hdp : d ∉ Q p := fun hdp => hqp (hR.linked.apart q p d hdq hdp)
        simp only [if_neg hdp]
        exact hR.parent q d hdq
      · simp only [if_pos hdp]
    · rw [(hsame d).1]
      rcases ((mem_adopted hne).mp hd).2 with hd | ⟨-, hd⟩
      · exact hR.born q d hd
      · exact hR.born p d hd
    · rw [hpc]
      exact hR.seen
    · rw [hpc] at ht ⊢
      obtain ⟨hcQ, hz, hrest⟩ := hR.taken t c ht
      rw [(hsame c).1, hlog]
      exact ⟨hgone c hcQ, hz, hrest⟩
    · rw [hlog] at hm
      obtain ⟨hcQ, hz, hset⟩ := hR.reaped t c status hm
      rw [(hsame c).1]
      refine ⟨hgone c hcQ, hz, (hsame c).2.1.trans hset.1, ?_⟩
      rw [hpc, howner]
      exact hset.2
    · rw [hlog]
      exact hR.once
    · rw [hlog] at hm ⊢
      rw [hpc]
      refine (hR.kept q c hm).imp_left fun ⟨r, hr⟩ => ?_
      by_cases hrp : r = p
      · exact ⟨i, (mem_adopted hne).mpr ⟨hne, .inr ⟨rfl, hrp ▸ hr⟩⟩⟩
      · exact ⟨r, (mem_adopted hne).mpr ⟨hrp, .inl hr⟩⟩
  have hfirst : ∀ u, (s.pc u).waiting → (s1.proc (s1.owner u)).waitChan = true ∧
      (s1.proc (s1.owner u)).threads.head? = some u := by
    intro u hu
    rw [howner, (hsame _).2.2.1, (hsame _).2.2.2]
    exact hW.first u hu
  have hold : ∀ u target c, s.pc u = .block target ∨ s.pc u = .asleep target → c ∈ Q (s.owner u) →
      isTarget target c = true → (s.proc c).state = .zombie → Exiting s1 c ∨ Roused s1 u := by
    intro u target c hu hc htar hz
    unfold Exiting Roused
    rw [hpc, howner, hsched]
    exact hW.roused u target c hu hc htar hz
  by_cases hany : (Q p).any fun c => (s.proc c).state = .zombie
  · rw [if_pos hany] at hs
    obtain ⟨hpc', howner', hproc'⟩ := wakeWaiter_same s1 i
    rw [hs] at hpc' howner' hproc'
    rw [hpc] at hpc'
    rw [howner] at howner'
    have hroused : ∀ u, Roused s1 u → Roused s' u := by
      intro u hr
      rcases wakeWaiter_cases s1 i with heq | ⟨v, heq⟩ <;> rw [← hs, heq]
      · exact hr
      · exact hr.wakeup
    refine ⟨⟨_, hs ▸ hR₁.wakeWaiter i, fun u hu => ?_, fun u target c hu hc htar hz => ?_⟩, hpc'⟩
    · rw [hpc'] at hu
      rw [hproc', howner', ← howner]
      exact hfirst u hu
    · rw [hpc'] at hu
      rw [howner'] at hc
      rw [hproc', (hsame c).1] at hz
      rcases ((mem_adopted hne).mp hc).2 with hc | ⟨hui, -⟩
      · refine (hold u target c hu hc htar hz).imp ?_ (hroused u)
        unfold Exiting
        rw [hpc', howner', hpc, howner]
        exact id
      · refine .inr ?_
        have hwoken := roused_wakeWaiter (hfirst u (waiting_of_block hu))
        rwa [howner, hui, hs] at hwoken
  · rw [if_neg hany] at hs
    subst hs
    refine ⟨⟨_, hR₁, fun u hu => hfirst u (by rwa [hpc] at hu),
      fun u target c hu hc htar hz => ?_⟩, hpc⟩
    rw [hpc] at hu
    rw [howner] at hc
    rw [(hsame c).1] at hz
    rcases ((mem_adopted hne).mp hc).2 with hc | ⟨-, hc⟩
    · exact hold u target c hu hc htar hz
    · exact absurd (any_eq_true.mpr ⟨c, hc, decide_eq_true hz⟩) hany

theorem WaitInv.orphan [Fintype Pid] {i : Pid} (hpc : s.pc t = .orphan) (hi : s.init = some i)
    (hne : i ≠ s.owner t) (hs : (s.reparent (s.owner t)).map (fun s => s.setPc t .notify) = some s')
    : WaitInv s' := by
  obtain ⟨s1, hs1, rfl⟩ := Option.map_eq_some_iff.mp hs
  obtain ⟨⟨Q, hR, hW⟩, hpc1⟩ := h.reparent hi hne hs1
  have hpc1 : s1.pc t = .orphan := by rw [hpc1, hpc]
  exact ⟨Q, hR.move rfl rfl rfl rfl (fun _ => rfl) (fun _ => rfl) (fun _ => rfl)
    (by simp [hpc1]) nofun
    nofun, hW.move rfl rfl (fun _ => rfl) (fun _ _ => rfl) (fun u _ hu => hW.first u hu)
    (fun hb => hb.elim) (fun _ => trivial) nofun⟩

theorem WaitInv.wakeup {u : Tid} :
    WaitInv { s with sched := update s.sched u (s.sched u).wakeup } := by
  obtain ⟨Q, hR, hW⟩ := h
  exact ⟨Q, ⟨hR.linked, hR.parent, hR.born, hR.seen, hR.taken, hR.reaped, hR.once,
    hR.kept⟩, hW.wakeup⟩

theorem WaitInv.wakeWaiter (p : Pid) : WaitInv (s.wakeWaiter p) := by
  obtain ⟨Q, hR, hW⟩ := h
  exact ⟨Q, hR.wakeWaiter p, hW.wakeWaiter p⟩

end

variable [Fintype Pid]

theorem WaitInv.next (h : WaitInv s) (hc : WaitCalm s (.next t)) (hs : s.next t = some s') :
    WaitInv s' := by
  unfold WaitSys.next at hs
  split at hs <;> rename_i hpc
  · cases hs
    exact h
  · exact h.scan hpc hs
  · rename_i c seen
    cases hs
    obtain ⟨hseen, hset⟩ := hc.seen t c seen rfl hpc
    obtain ⟨Q, hR, -⟩ := id h
    rcases hR.seen t c seen hpc with rfl | rfl
    · rw [WaitSys.report, if_pos hseen]
      exact h.leave (.inr ⟨c, hpc⟩)
    · exact h.reap hpc hset
  · cases hs
    exact h.leave (.inl hpc)
  · cases hs
    exact h.block hpc
  · split at hs <;> cases hs
    · exact h.resume hpc
    · exact h
  · cases hs
    exact h.dying hpc
  · obtain ⟨i, hi, hne⟩ := hc.orphan t rfl hpc
    exact h.orphan hpc hi hne hs
  · cases hs
    exact h.notify hpc

theorem WaitInv.step {a : WaitAction Pid Tid} (h : WaitInv s) (hc : WaitCalm s a)
    (hs : s.step a = some s') : WaitInv s' := by
  cases a with
  | waitpid t target nohang =>
    simp only [WaitSys.step] at hs
    split at hs <;> cases hs
    · rename_i hpc
      exact h.enter hpc (hc.first t target nohang rfl).1
    · exact h
  | exit t code =>
    simp only [WaitSys.step] at hs
    split at hs <;> cases hs
    · rename_i hpc
      exact h.exit hpc (hc.exit t code rfl).2
    · exact h
  | next t => exact h.next hc hs
  | spawn t c =>
    simp only [WaitSys.step] at hs
    split at hs <;> cases hs
    · exact h.spawn ‹_›
    · exact h
  | spawnFailed t c => exact absurd rfl (hc.created t c)
  | stop p =>
    simp only [WaitSys.step] at hs
    have hstop := h.setState .stopped (hc.stop p rfl).1 nofun nofun
    split at hs <;> cases hs
    · exact hstop.wakeWaiter _
    · exact hstop
  | «continue» p =>
    simp only [WaitSys.step] at hs
    split at hs
    · rename_i hst
      have hrun := h.setState .running (by rw [hst]; nofun) nofun nofun
      split at hs <;> cases hs
      · exact hrun.wakeup
      · exact hrun
    · cases hs
      exact h
  | addThread t =>
    cases hs
    exact h.setThreads (hc.threads t (.inl rfl))
  | removeThread t =>
    cases hs
    exact h.setThreads (f := fun l => l.erase t) (hc.threads t (.inr rfl))
  | poke u =>
    cases hs
    exact h.wakeup

end Steps

section Results
variable [DecidableEq Pid] {s : WaitSys Pid Tid}

theorem WaitInv.of_init (h : s.Init) : WaitInv s := by
  refine ⟨fun _ => [], ⟨?_, nofun, nofun, fun t c seen ht => ?_, fun t c ht => ?_, ?_, ?_, ?_⟩,
    fun t ht => ?_, nofun⟩
  · rw [h.kids]
    exact ⟨fun _ => .nil, nofun⟩
  · rw [h.pc] at ht
    cases ht
  · rw [h.pc] at ht
    cases ht
  · rw [h.log]
    nofun
  · rw [h.log]
    exact .nil
  · rw [h.log]
    nofun
  · rw [h.pc] at ht
    exact ht.elim

variable [Fintype Pid]

theorem WaitInv.sound (h : WaitInv s) : WaitSound s := by
  obtain ⟨Q, hR, hW⟩ := h
  refine ⟨fun t target children c hpc hb hm hc htar hz => ?_, fun t c status hm => ?_, hR.once,
    fun p c hm _ => ?_⟩
  · rw [hR.linked.members] at hm
    cases hm
    rcases hW.roused t target c (.inr hpc) hc htar hz with hx | hx
    · exact hx
    · exact absurd hb (hx.2 target hpc)
  · obtain ⟨-, hz, hset⟩ := hR.reaped t c status hm
    exact ⟨hz, hset.1⟩
  · exact (hR.kept p c hm).imp_left fun ⟨q, hq⟩ =>
      ⟨q, Q q, hR.parent q c hq, hR.linked.members q, hq⟩

variable [DecidableEq Tid]

end Results

/-- A process with its main thread, its child with a thread, and init. Thread 1 is a second thread
that does not run yet. -/
def parentAndChild : WaitSys (Fin 3) (Fin 3) where
  proc := fun p => ⟨if p = 1 then .free else .running, 0, none, false, if p = 0 then [0] else []⟩
  kids := ⟨fun _ => none, fun _ => none⟩
  init := some 2
  owner := fun t => if t = 2 then 1 else 0
  pc := fun _ => .user
  sched := fun _ => .fresh
  log := []

theorem init_parentAndChild : parentAndChild.Init where
  state := by decide
  kids := rfl
  pc := fun _ => rfl
  log := rfl

/-- The main thread creates the child, waits for it and falls asleep, and the child exits with 7. -/
def childExitRun : List (WaitAction (Fin 3) (Fin 3)) :=
  [.spawn 0 1, .waitpid 0 none false, .next 0, .next 0, .exit 2 7, .next 2, .next 2, .next 2]

def waitCalmCheck (s : WaitSys (Fin 3) (Fin 3)) : WaitAction (Fin 3) (Fin 3) → Bool
  | .waitpid t _ _ =>
    decide ((s.proc (s.owner t)).threads.head? = some t ∧ ∀ u, s.pc u = .user)
  | .addThread _ | .removeThread _ | .stop _ | .spawnFailed _ _ => false
  | .next t =>
    match s.pc t with
    | .report c seen => decide ((s.proc c).state = seen ∧ ∀ u, u ≠ t → s.pc u = .user)
    | .orphan => decide (s.init = some 2 ∧ s.owner t ≠ 2)
    | _ => true
  | .exit t _ =>
    decide ((s.proc (s.owner t)).state ≠ .free ∧ (s.proc (s.owner t)).state ≠ .zombie)
  | _ => true

theorem waitCalm_of_check (s : WaitSys (Fin 3) (Fin 3)) (a : WaitAction (Fin 3) (Fin 3))
    (h : waitCalmCheck s a = true) : WaitCalm s a := by
  refine ⟨?_, ?_, ?_, ?_, ?_, ?_, ?_⟩
  · rintro t target nohang rfl
    obtain ⟨hhead, huser⟩ := of_decide_eq_true h
    refine ⟨hhead, fun u _ => ?_⟩
    rw [huser u]
    exact id
  · rintro t (rfl | rfl) <;> cases h
  · rintro t c seen rfl hpc
    simp only [waitCalmCheck, hpc, decide_eq_true_eq] at h
    refine ⟨h.1, rfl, fun x k _ hx => ?_⟩
    by_cases hxt : x = t
    · rw [hxt, hpc] at hx
      cases hx
    · rw [h.2 x hxt] at hx
      cases hx
  · rintro t code rfl
    obtain ⟨hfree, hz⟩ := of_decide_eq_true h
    exact ⟨hfree, fun hz' => absurd hz' hz⟩
  · rintro t rfl hpc
    simp only [waitCalmCheck, hpc, decide_eq_true_eq] at h
    exact ⟨2, h.1, h.2.symm⟩
  · rintro p rfl
    cases h
  · rintro t c rfl
    cases h

end Xnix
