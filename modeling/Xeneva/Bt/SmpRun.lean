import Xeneva.Bt.Smp

/-!
# Bonds are stored once all is shown

The flags `need_confirm` and `user_ok` say what the pairing has shown, as long as the PDUs come in
their order. A bond is stored only when `user_ok` is set.
-/

namespace Xeneva.Bt.Smp
open Base

variable {c : Crypto} {w : Watch} {s : Host} {a : Act} {p : Bytes} {r : Rand}

/-- The flags of the pairing. -/
def Host.flags (s : Host) : Bool × Bool × Bool := (s.pairFail, s.needConfirm, s.userOk)

theorem rememberBond_eq (s : Host) (r : Rand) (lesc : Bool) :
    ∃ bonds, rememberBond s r lesc = { s with bonds := bonds } := by
  unfold rememberBond
  dsimp only
  split
  · exact ⟨_, rfl⟩
  · split <;> exact ⟨_, rfl⟩

theorem setBond_eq (s : Host) (f : Bond → Bond) : ∃ bonds, setBond s f = { s with bonds := bonds } := by
  unfold setBond
  split
  · exact ⟨_, rfl⟩
  · exact ⟨s.bonds, rfl⟩

@[simp] theorem flags_rememberBond (s : Host) (r : Rand) (lesc : Bool) :
    (rememberBond s r lesc).flags = s.flags := by
  obtain ⟨bonds, h⟩ := rememberBond_eq s r lesc
  rw [h]
  rfl

@[simp] theorem flags_setBond (s : Host) (f : Bond → Bond) : (setBond s f).flags = s.flags := by
  obtain ⟨bonds, h⟩ := setBond_eq s f
  rw [h]
  rfl

@[simp] theorem flags_smpSendKeys (s : Host) : (smpSendKeys s).1.flags = s.flags := by
  unfold smpSendKeys
  split <;> rfl

theorem flags_onPairRsp (c : Crypto) (s : Host) (r : Rand) (p : Bytes) :
    (onPairRsp c s r p).1.flags = s.flags := by
  unfold onPairRsp
  dsimp only
  split
  · split <;> rfl
  · rfl

/-- The number is shown, or the pairing fails. -/
theorem flags_lescAfterRandom (c : Crypto) (s : Host) :
    (lescAfterRandom c s).pairFail = true ∨
      (c.f4 (s.remotePk.take 32) (s.localPk.take 32) s.rrnd 0 = s.pcnf ∧
        (lescAfterRandom c s).flags = (s.pairFail, true, s.userOk)) := by
  unfold lescAfterRandom
  split
  · exact .inl rfl
  next h =>
    split
    · exact .inl rfl
    · exact .inr ⟨not_not.mp h, rfl⟩

theorem flags_onRandom (c : Crypto) (s : Host) (p : Bytes) :
    (onRandom c s p).1.pairFail = true ∨
      (s.smpSc = true ∧ Opens c s p ∧ (onRandom c s p).1.flags = (s.pairFail, true, s.userOk)) ∨
      (s.smpSc = false ∧ (onRandom c s p).1.flags = s.flags) := by
  unfold onRandom
  dsimp only
  split
  next hsc =>
    rcases flags_lescAfterRandom c { s with rrnd := value16 p } with hf | ⟨ho, hf⟩
    · exact .inl hf
    · exact .inr (.inl ⟨hsc, ho, hf⟩)
  next hsc =>
    split
    · exact .inl rfl
    · exact .inr (.inr ⟨Bool.eq_false_iff.mpr hsc, rfl⟩)

/-! ## The invariant -/

/-- While a pairing goes on, the flags say what it has shown. -/
structure Says (flags : Bool × Bool × Bool) (g : Shown) : Prop where
  going : g.paired = true → flags.1 = false
  displayed : g.paired = true → flags.2.1 = true →
    g.pubKey = true ∧ g.confirm = true ∧ g.matched = true
  secured : g.paired = true → flags.2.2 = true → g.Authentic

theorem Says.of_over {flags : Bool × Bool × Bool} {g : Shown} (h : g.paired = false) :
    Says flags g where
  going hp := absurd (h.symm.trans hp) Bool.false_ne_true
  displayed hp := absurd (h.symm.trans hp) Bool.false_ne_true
  secured hp := absurd (h.symm.trans hp) Bool.false_ne_true

/-- The flags are as they were, and nothing that was shown is forgotten. -/
theorem Says.kept {flags : Bool × Bool × Bool} {g : Shown} (h : Says flags g) (b : Bool) :
    Says flags { g with checked := g.checked || b, paired := g.paired && !flags.1 } where
  going hp := by simpa using (Bool.and_eq_true_iff.mp hp).2
  displayed hp hd := h.displayed (Bool.and_eq_true_iff.mp hp).1 hd
  secured hp hu := by
    obtain ⟨-, h1, h2, h3, h4, h5⟩ := h.secured (Bool.and_eq_true_iff.mp hp).1 hu
    exact ⟨hp, h1, h2, h3, h4, by rw [h5]; rfl⟩

/-- The step does nothing to the flags and to what is shown. -/
theorem Says.same (h : Says w.host.flags w.shown) (hf : (step c w.host a).1.flags = w.host.flags)
    (ho : observe c w.host w.shown a = w.shown) :
    Says (watch c w a).host.flags (watch c w a).shown := by
  have hpf : (step c w.host a).1.pairFail = w.host.flags.1 := congrArg Prod.fst hf
  have hk := h.kept false
  rw [Bool.or_false] at hk
  unfold watch Watch.after
  dsimp only
  rw [hf, ho, hpf]
  exact hk

/-- A new exchange begins, while no number is shown or accepted. -/
theorem Says.fresh {flags : Bool × Bool × Bool} {g g' : Shown}
    (hg : g'.paired = true → g.paired = true ∧ flags.1 = false)
    (hok : g.paired = true → flags.2.1 = false ∧ flags.2.2 = false) : Says flags g' where
  going hp := (hg hp).2
  displayed hp hd := absurd ((hok (hg hp).1).1.symm.trans hd) Bool.false_ne_true
  secured hp hu := absurd ((hok (hg hp).1).2.symm.trans hu) Bool.false_ne_true

theorem after_paired (h : (w.after c a).paired = true) :
    (observe c w.host w.shown a).paired = true ∧ (step c w.host a).1.pairFail = false := by
  obtain ⟨h1, h2⟩ := Bool.and_eq_true_iff.mp h
  exact ⟨h1, by simpa using h2⟩

/-- The step begins a new exchange and leaves the flags alone. -/
theorem Says.restarted (hf : (step c w.host a).1.flags = w.host.flags)
    (ho : (observe c w.host w.shown a).paired = w.shown.paired)
    (hok : w.shown.paired → ¬w.host.needConfirm ∧ ¬w.host.userOk) :
    Says (watch c w a).host.flags (watch c w a).shown := by
  apply Says.fresh (g := w.shown)
  · intro hp
    obtain ⟨h1, h2⟩ := after_paired (c := c) (a := a) hp
    exact ⟨ho ▸ h1, h2⟩
  · intro hp
    obtain ⟨h1, h2⟩ := hok hp
    change (step c w.host a).1.flags.2.1 = false ∧ (step c w.host a).1.flags.2.2 = false
    rw [hf]
    exact ⟨Bool.eq_false_iff.mpr h1, Bool.eq_false_iff.mpr h2⟩

theorem flags_secure (s : Host) (r : Rand) : (secure s r).1.flags = s.flags :=
  flags_rememberBond s r true

/-- A random: the number is shown only for the key and the confirm value of the pairing. -/
theorem Says.random (hk : codeOf p = .random) (hok : PduOk c w p .random) :
    Says (watch c w (.pdu p r)).host.flags (watch c w (.pdu p r)).shown := by
  have hstep : (step c w.host (.pdu p r)).1 = (onRandom c w.host p).1 := by
    unfold step onSmp
    dsimp only
    rw [hk]
  have hobs : observe c w.host w.shown (.pdu p r) = { w.shown.restart with
      matched := w.shown.pubKey && w.shown.confirm && w.host.smpSc && Opens c w.host p } := by
    unfold observe
    dsimp only
    rw [hk]
  rcases flags_onRandom c w.host p with hf | ⟨hsc, hopens, hf⟩ | ⟨hsc, hf⟩
  · apply Says.of_over
    change ((observe c w.host w.shown (.pdu p r)).paired &&
      !(step c w.host (.pdu p r)).1.pairFail) = false
    rw [hstep, hf]
    simp
  · -- the number is shown
    have hflags : (watch c w (.pdu p r)).host.flags = (w.host.pairFail, true, w.host.userOk) := by
      rw [← hf, ← hstep]
      rfl
    rw [hflags]
    constructor
    · intro hp
      have := (after_paired hp).2
      rw [hstep] at this
      exact (congrArg Prod.fst hf).symm.trans this
    · intro hp _
      have hpaired := (after_paired hp).1
      rw [hobs] at hpaired
      obtain ⟨hpk, hcnf⟩ := (hok hpaired).2 hsc hopens
      change (observe c w.host w.shown (.pdu p r)).pubKey = true ∧
        (observe c w.host w.shown (.pdu p r)).confirm = true ∧
        (observe c w.host w.shown (.pdu p r)).matched = true
      rw [hobs]
      exact ⟨hpk, hcnf, by simp [hpk, hcnf, hsc, hopens]⟩
    · intro hp hu
      have hpaired := (after_paired hp).1
      rw [hobs] at hpaired
      exact absurd hu (hok hpaired).1.2
  · apply Says.restarted
    · rw [hstep]
      exact hf
    · rw [hobs]
      rfl
    · exact fun hp => (hok hp).1

theorem Says.pdu (h : Says w.host.flags w.shown) (hok : PduOk c w p (codeOf p)) :
    Says (watch c w (.pdu p r)).host.flags (watch c w (.pdu p r)).shown := by
  have hstep : step c w.host (.pdu p r) = onSmp c w.host r p := rfl
  cases hk : codeOf p with
  | pairRsp =>
    rw [hk] at hok
    apply Says.restarted _ _ hok
    · rw [hstep]
      unfold onSmp
      rw [hk]
      exact flags_onPairRsp c w.host r p
    · unfold observe
      dsimp only
      rw [hk]
      rfl
  | confirm =>
    rw [hk] at hok
    apply Says.restarted _ _ hok
    · rw [hstep]
      unfold onSmp
      rw [hk]
      rfl
    · unfold observe
      dsimp only
      rw [hk]
      rfl
  | random => exact Says.random hk (hk ▸ hok)
  | pubKey =>
    rw [hk] at hok
    apply Says.restarted _ _ hok
    · rw [hstep]
      unfold onSmp
      rw [hk]
      rfl
    · unfold observe
      dsimp only
      rw [hk]
      rfl
  | dhCheck =>
    have hf : (step c w.host (.pdu p r)).1.flags = w.host.flags := by
      rw [hstep]
      unfold onSmp
      rw [hk]
      dsimp only
      split
      · exact flags_secure w.host r
      · rfl
    have hpf : (step c w.host (.pdu p r)).1.pairFail = w.host.flags.1 := congrArg Prod.fst hf
    have hkept := h.kept (w.shown.matched && p.length ≥ 17 && value16 p = peerCheck c w.host)
    unfold watch Watch.after
    dsimp only
    rw [hf, hpf]
    unfold observe
    dsimp only
    rw [hk]
    exact hkept
  | failed =>
    apply Says.of_over
    change (_ && !(step c w.host (.pdu p r)).1.pairFail) = false
    have hfail : (step c w.host (.pdu p r)).1.pairFail = true := by
      rw [hstep]
      unfold onSmp
      rw [hk]
    rw [hfail]
    simp
  | encInfo =>
    apply h.same
    · rw [hstep]
      unfold onSmp
      rw [hk]
      rfl
    · unfold observe
      dsimp only
      rw [hk]
  | masterId =>
    apply h.same
    · rw [hstep]
      unfold onSmp
      rw [hk]
      simp
    · unfold observe
      dsimp only
      rw [hk]
  | idInfo =>
    apply h.same
    · rw [hstep]
      unfold onSmp
      rw [hk]
      simp
    · unfold observe
      dsimp only
      rw [hk]
  | other =>
    apply h.same
    · rw [hstep]
      unfold onSmp
      rw [hk]
    · unfold observe
      dsimp only
      rw [hk]

theorem Says.pair (h : Says w.host.flags w.shown) (bredr : Bool) :
    Says (watch c w (.pair bredr)).host.flags (watch c w (.pair bredr)).shown := by
  by_cases hc : ¬w.host.connected
  · apply h.same
    · unfold step doPair
      dsimp only
      rw [if_pos hc]
    · unfold observe
      dsimp only
      rw [if_pos hc]
  · by_cases hb : w.host.peerType = BT_ADDR_BREDR ∨ bredr = true
    · apply Says.of_over
      change ((observe c w.host w.shown (.pair bredr)).paired && _) = false
      unfold observe
      dsimp only
      rw [if_neg hc, if_pos hb]
      rfl
    · have hstep : (step c w.host (.pair bredr)).1.flags = (false, false, false) := by
        unfold step doPair
        dsimp only
        rw [if_neg hc, if_neg hb]
        rfl
      change Says (step c w.host (.pair bredr)).1.flags _
      rw [hstep]
      exact ⟨fun _ => rfl, fun _ hd => absurd hd Bool.false_ne_true,
        fun _ hu => absurd hu Bool.false_ne_true⟩

/-- The user accepts what was shown, after the right check value. -/
theorem Says.confirm (h : Says w.host.flags w.shown) (n : ℕ)
    (hok : StepOk c w (.confirm n)) :
    Says (watch c w (.confirm n)).host.flags (watch c w (.confirm n)).shown := by
  obtain ⟨hp, hn, hchecked⟩ := hok
  obtain ⟨hpk, hcnf, hm⟩ := h.displayed hp hn
  have hpf : w.host.pairFail = false := h.going hp
  constructor
  · intro _
    exact hpf
  · intro _ hd
    exact absurd hd Bool.false_ne_true
  · intro hp' _
    exact ⟨hp', hpk, hcnf, hm, hm, hchecked⟩

theorem Says.next (h : Says w.host.flags w.shown) (hok : StepOk c w a) :
    Says (watch c w a).host.flags (watch c w a).shown := by
  cases a with
  | pdu p r => exact h.pdu hok
  | pair bredr => exact h.pair bredr
  | confirm n => exact h.confirm n hok
  | confirmed r =>
    apply h.same _ rfl
    unfold Smp.step
    dsimp only
    split
    · exact flags_secure _ r
    · rfl
  | connect peer type => exact Says.of_over rfl
  | disconnect => exact Says.of_over rfl
  | encryption on =>
    apply h.same _ rfl
    unfold Smp.step
    dsimp only
    split
    · exact flags_smpSendKeys _
    · rfl

/-! ## Bonds -/

theorem bondFind_some {n : ℕ} {b : Bond} (h : bondFind s = some n) (hb : s.bonds[n]? = some b) :
    b.isOf s.peer s.peerType = true := by
  obtain ⟨hn, hp, -⟩ := List.findIdx?_eq_some_iff_getElem.mp h
  rw [List.getElem?_eq_getElem hn] at hb
  exact Option.some.inj hb ▸ hp

theorem bondFind_ne_none {n : ℕ} {b : Bond} (hb : s.bonds[n]? = some b)
    (hp : b.isOf s.peer s.peerType = true) : bondFind s ≠ none := by
  intro h
  have hn := List.findIdx?_eq_none_iff.mp h b (List.mem_of_getElem? hb)
  exact absurd (hn.symm.trans hp) Bool.false_ne_true

/-- Of the bonds that were there, only those of the peer change. -/
def OnlyPeer (s s' : Host) : Prop :=
  ∀ (i : ℕ) (b b' : Bond), s.bonds[i]? = some b → s'.bonds[i]? = some b' → b' ≠ b →
    b.isOf s.peer s.peerType = true

theorem setBond_onlyPeer (s : Host) (f : Bond → Bond) : OnlyPeer s (setBond s f) := by
  intro i b b' hb hb' hne
  unfold setBond at hb'
  split at hb'
  next idx h =>
    dsimp only at hb'
    rw [List.getElem?_modify, hb] at hb'
    by_cases hi : idx = i
    · exact bondFind_some h (hi ▸ hb)
    · have hsame : b = b' := by simpa [hi] using hb'
      exact absurd hsame.symm hne
  next => exact absurd (Option.some.inj (hb'.symm.trans hb)) hne

/-- A bond is stored in the peer's place, or in a free one. -/
theorem rememberBond_onlyPeer (hfree : bondFind s = none → s.bonds.length < MAX_BONDS) (r : Rand)
    (lesc : Bool) :
    OnlyPeer s (rememberBond s r lesc) ∧ s.bonds.length ≤ (rememberBond s r lesc).bonds.length := by
  unfold rememberBond
  dsimp only
  split
  next idx h =>
    refine ⟨?_, by simp⟩
    intro i b b' hb hb' hne
    dsimp only at hb'
    by_cases hi : idx = i
    · exact bondFind_some h (hi ▸ hb)
    · rw [List.getElem?_set_ne hi] at hb'
      exact absurd (Option.some.inj (hb'.symm.trans hb)) hne
  next h =>
    rw [if_neg (by have := hfree h; omega)]
    refine ⟨?_, by simp⟩
    intro i b b' hb hb' hne
    dsimp only at hb'
    have hi : i < s.bonds.length := (List.getElem?_eq_some_iff.mp hb).1
    rw [List.getElem?_append_left hi] at hb'
    exact absurd (Option.some.inj (hb'.symm.trans hb)) hne

theorem OnlyPeer.trans {s₁ s₂ : Host} (h : OnlyPeer s s₁) (h' : OnlyPeer s₁ s₂)
    (hlen : s.bonds.length ≤ s₁.bonds.length) (hp : s₁.peer = s.peer)
    (ht : s₁.peerType = s.peerType) : OnlyPeer s s₂ := by
  intro i b b' hb hb' hne
  have hi : i < s.bonds.length := (List.getElem?_eq_some_iff.mp hb).1
  obtain ⟨b₁, hb₁⟩ : ∃ b₁, s₁.bonds[i]? = some b₁ :=
    ⟨_, List.getElem?_eq_getElem (Nat.lt_of_lt_of_le hi hlen)⟩
  by_cases he : b₁ = b
  · have := h' i b₁ b' hb₁ hb' (he ▸ hne)
    rwa [he, hp, ht] at this
  · exact h i b b₁ hb hb₁ he

/-- A key-distribution PDU changes bonds of the peer only. -/
theorem onSmp_onlyPeer (hd : (codeOf p).distributes = true) (hok : PduOk c w p (codeOf p)) :
    OnlyPeer w.host (onSmp c w.host r p).1 := by
  unfold onSmp
  cases hk : codeOf p with
  | encInfo =>
    intro i b b' hb hb' hne
    exact absurd (Option.some.inj (hb'.symm.trans hb)) hne
  | masterId =>
    rw [hk] at hok
    obtain ⟨h₁, hlen⟩ := rememberBond_onlyPeer hok.2 r false
    obtain ⟨bonds, hbonds⟩ := rememberBond_eq w.host r false
    exact h₁.trans (setBond_onlyPeer _ _) hlen (by rw [hbonds]) (by rw [hbonds])
  | idInfo => exact setBond_onlyPeer _ _
  | pairRsp | confirm | random | failed | pubKey | dhCheck | other =>
    rw [hk] at hd
    exact absurd hd (by decide)

/-- The keys are open to the PDU. -/
theorem keysOpen_of_distributes (hok : PduOk c w p (codeOf p))
    (hd : (codeOf p).distributes = true) (hne : codeOf p ≠ .encInfo) : w.keysOpen := by
  cases hk : codeOf p with
  | encInfo => exact absurd hk hne
  | masterId => exact (hk ▸ hok : PduOk c w p .masterId).1
  | idInfo => exact (hk ▸ hok : PduOk c w p .idInfo)
  | pairRsp | confirm | random | failed | pubKey | dhCheck | other =>
    rw [hk] at hd
    exact absurd hd (by decide)

theorem distributed_of_ok (hok : PduOk c w p (codeOf p)) (hd : (codeOf p).distributes = true)
    {i : ℕ} {b b' : Bond} (hb : w.host.bonds[i]? = some b)
    (hb' : (onSmp c w.host r p).1.bonds[i]? = some b') (hne : b' ≠ b) :
    w.shown.paired = true ∧ w.host.encrypted = true ∧ b.isOf w.host.peer w.host.peerType = true := by
  have hpeer := onSmp_onlyPeer hd hok i b b' hb hb' hne
  have henc : codeOf p ≠ .encInfo := by
    intro hk
    unfold onSmp at hb'
    rw [hk] at hb'
    exact hne (Option.some.inj (hb'.symm.trans hb))
  rcases keysOpen_of_distributes hok hd henc with hnone | ⟨hp, he⟩
  · exact absurd hnone (bondFind_ne_none hb hpeer)
  · exact ⟨hp, he, hpeer⟩

/-! ## Runs -/

theorem secures_pdu (h : (onSmp c s r p).2.stored = some true ∨
      ((onSmp c s r p).2.enc ≠ none ∧ s.smpSc = true)) :
    codeOf p = .dhCheck ∧ (s.userOk = true ∨ ¬s.needConfirm) := by
  cases hk : codeOf p with
  | dhCheck =>
    refine ⟨rfl, ?_⟩
    by_contra hn
    unfold onSmp at h
    rw [hk] at h
    dsimp only at h
    rw [if_neg hn] at h
    simp at h
  | pairRsp =>
    have hout : (onSmp c s r p).2.stored = none ∧ (onSmp c s r p).2.enc = none := by
      unfold onSmp onPairRsp
      rw [hk]
      dsimp only
      split
      · split <;> exact ⟨rfl, rfl⟩
      · exact ⟨rfl, rfl⟩
    simp [hout] at h
  | random =>
    have hout : (onSmp c s r p).2.stored = none ∧
        (s.smpSc = true → (onSmp c s r p).2.enc = none) := by
      unfold onSmp onRandom
      rw [hk]
      dsimp only
      split
      · exact ⟨rfl, fun _ => rfl⟩
      next hsc => split <;> exact ⟨rfl, fun hs => absurd hs hsc⟩
    rcases h with h | ⟨henc, hsc⟩
    · exact absurd (hout.1.symm.trans h) (by simp)
    · exact absurd (hout.2 hsc) henc
  | confirm | failed | encInfo | masterId | idInfo | pubKey | other =>
    unfold onSmp at h
    rw [hk] at h
    simp at h

/-- A bond is stored by a check PDU or by the rest of `do_confirm`. -/
theorem secures_cases (h : (step c w.host a).2.stored = some true ∨
      ((step c w.host a).2.enc ≠ none ∧ w.host.smpSc = true)) :
    (∃ p r, a = .pdu p r ∧ codeOf p = .dhCheck ∧ (w.host.userOk = true ∨ ¬w.host.needConfirm)) ∨
      ∃ r, a = .confirmed r ∧ w.host.confirming = true := by
  cases a with
  | pdu p r => exact .inl ⟨p, r, rfl, secures_pdu h⟩
  | confirmed r =>
    refine .inr ⟨r, rfl, ?_⟩
    by_contra hn
    unfold Smp.step at h
    dsimp only at h
    rw [if_neg hn] at h
    simp at h
  | pair bredr =>
    have hout : (step c w.host (.pair bredr)).2.stored = none ∧
        (step c w.host (.pair bredr)).2.enc = none := by
      unfold Smp.step doPair
      dsimp only
      split
      · exact ⟨rfl, rfl⟩
      · split <;> exact ⟨rfl, rfl⟩
    simp [hout] at h
  | encryption on =>
    have hout : (step c w.host (.encryption on)).2.stored = none ∧
        (step c w.host (.encryption on)).2.enc = none := by
      unfold Smp.step smpSendKeys
      dsimp only
      split
      · split <;> exact ⟨rfl, rfl⟩
      · exact ⟨rfl, rfl⟩
    simp [hout] at h
  | confirm n => simp [Smp.step, doConfirm] at h
  | connect peer type => simp [Smp.step] at h
  | disconnect => simp [Smp.step] at h

theorem Says.safe (h : Says w.host.flags w.shown) (hok : StepOk c w a) : Safe c w a := by
  constructor
  · intro hs
    have hsays := h.next hok
    -- the step is one of the two, and finds the number accepted in a pairing that goes on
    have hgo : w.secured ∧ (step c w.host a).1.flags = w.host.flags ∧
        (observe c w.host w.shown a).paired = w.shown.paired := by
      rcases secures_cases hs with ⟨p, r, rfl, hk, hflag⟩ | ⟨r, rfl, hc⟩
      · have hpok : PduOk c w p .dhCheck := hk ▸ hok
        refine ⟨?_, ?_, ?_⟩
        · rcases hpok with ⟨hn, hu⟩ | hsec
          · rcases hflag with hu' | hn'
            · exact absurd hu' hu
            · exact absurd hn hn'
          · exact hsec
        · change (onSmp c w.host r p).1.flags = _
          unfold onSmp
          rw [hk]
          dsimp only
          rw [if_pos hflag]
          exact flags_secure w.host r
        · unfold observe
          dsimp only
          rw [hk]
      · refine ⟨hok hc, ?_, rfl⟩
        unfold Smp.step
        dsimp only
        rw [if_pos hc]
        exact flags_secure _ r
    obtain ⟨⟨hp, hu⟩, hf, ho⟩ := hgo
    have hpf : (step c w.host a).1.pairFail = false := (congrArg Prod.fst hf).trans (h.going hp)
    have hpaired : (w.after c a).paired = true := by
      change ((observe c w.host w.shown a).paired && !(step c w.host a).1.pairFail) = true
      rw [ho, hpf, hp]
      rfl
    apply hsays.secured hpaired
    change (step c w.host a).1.flags.2.2 = true
    rw [hf]
    exact hu
  · intro p r ha hd i b b' hb hb' hkeys
    subst ha
    apply distributed_of_ok hok hd hb hb'
    intro he
    exact hkeys (he ▸ rfl)

/-- In a run in which no exchange begins once a number is shown, the random comes after the key and
the confirm value, the check PDU while a number is shown or accepted, the acceptance after the right
check value, and the keys of a bond in its peer's pairing on an encrypted link, bonds are safe. -/
theorem exec_safe (c : Crypto) (s : Host) (as : List Act)
    (h : Respects (StepOk c) (watch c) ⟨s, {}⟩ as) : Respects (Safe c) (watch c) ⟨s, {}⟩ as :=
  h.imp (I := fun w => Says w.host.flags w.shown) (fun _ _ hi hok => ⟨hi.next hok, hi.safe hok⟩)
    (Says.of_over rfl)

/-- Functions with which a peer that sends zeros is honest. -/
def zeroCrypto : Crypto where
  f4 _ _ x _ := x
  f5 w _ _ _ _ := (w, w)
  f6 w _ _ _ _ _ _ := w
  g2 _ _ _ _ := 123456
  c1 _ r _ _ _ _ _ _ := r
  s1 _ r1 _ := r1
  p256MulG scalar := some (scalar, scalar)
  p256Dh _ px _ := some (px.take 16)

/-- A pairing in its order, with the keys at its end. -/
def orderlyPairing : List Act :=
  [.connect [1, 2, 3, 4, 5, 6] 0, .pair false, .pdu [0x02, 3, 0, 0x0d, 16, 2, 2] {},
    .pdu (0x0c :: zeros 64) {}, .pdu (0x03 :: zeros 16) {}, .pdu (0x04 :: zeros 16) {},
    .pdu (0x0d :: zeros 16) {}, .confirm 0, .confirmed {}, .encryption true,
    .pdu (0x08 :: zeros 16) {}]

theorem exec_safe_orderly : Respects (Safe zeroCrypto) (watch zeroCrypto) ⟨{}, {}⟩ orderlyPairing :=
  exec_safe zeroCrypto {} orderlyPairing (by decide +kernel)

/-- A check PDU of a peer that has sent nothing else. -/
def bareCheck : List Act := [.connect [1, 2, 3, 4, 5, 6] 0, .pdu [0x0d] {}]

/-- The user accepts before the peer's check value has come, as `btctl confirm` does. -/
def uncheckedPairing : List Act :=
  [.connect [1, 2, 3, 4, 5, 6] 0, .pair false, .pdu [0x02, 3, 0, 0x0d, 16, 2, 2] {},
    .pdu (0x0c :: zeros 64) {}, .pdu (0x03 :: zeros 16) {}, .pdu (0x04 :: zeros 16) {},
    .confirm 0, .confirmed {}]

/-- A host that has a bond with a peer. -/
def bondedHost : Host :=
  { bonds := [{ addr := [1, 2, 3, 4, 5, 6], type := 0, lesc := true, ltk := zeros 16,
                irk := zeros 16 }] }

/-- An identity key on a link that is not encrypted, outside a pairing. -/
def bareKey : List Act := [.connect [1, 2, 3, 4, 5, 6] 0, .pdu (0x08 :: List.replicate 16 1) {}]

/-- The first stores a bond with nothing shown, the second with the check value missing, and the
third changes the keys of a bond. -/
theorem not_exec_safe :
    ¬Respects (Safe zeroCrypto) (watch zeroCrypto) ⟨{}, {}⟩ bareCheck ∧
      ¬Respects (Safe zeroCrypto) (watch zeroCrypto) ⟨{}, {}⟩ uncheckedPairing ∧
        ¬Respects (Safe zeroCrypto) (watch zeroCrypto) ⟨bondedHost, {}⟩ bareKey := by
  refine ⟨?_, ?_, ?_⟩
  · intro h
    exact absurd (h.2.1.secured (.inl (by decide +kernel))) (by decide +kernel)
  · intro h
    exact absurd (h.2.2.2.2.2.2.2.1.secured (.inl (by decide +kernel))) (by decide +kernel)
  · intro h
    have hd := h.2.1.distributed (0x08 :: List.replicate 16 1) {} rfl (by decide +kernel) 0
      { addr := [1, 2, 3, 4, 5, 6], type := 0, lesc := true, ltk := zeros 16, irk := zeros 16 }
      { addr := [1, 2, 3, 4, 5, 6], type := 0, lesc := true, ltk := zeros 16,
        irk := List.replicate 16 1 } (by decide +kernel) (by decide +kernel) (by decide +kernel)
    exact absurd hd (by decide +kernel)

end Xeneva.Bt.Smp
