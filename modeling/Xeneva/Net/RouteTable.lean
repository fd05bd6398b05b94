import Xeneva.Net.Route

/-!
# Adding and deleting routes

Routes that are added are told apart by their interfaces; a deletion takes the first route with the
prefix, whichever interface it is on.
-/

namespace Xeneva.Net.Route

open Xeneva.Base

/-- To add a route and to delete it leaves the table, and the routes of other interfaces, as they
were. -/
def Restores {E : Type} (ifname : E → String) (add delete : List E → E → List E) (table : List E)
    (entry : E) : Prop :=
  delete (add table entry) entry = table ∧
    ∀ r ∈ table, ifname r ≠ ifname entry → r ∈ delete (add table entry) entry

/-- A new route has a mask of leading ones. -/
def RouteOp.masked : RouteOp → Prop
  | .add entry => Contiguous entry.netmask
  | _ => True

instance : ∀ op : RouteOp, Decidable op.masked
  | .add entry => inferInstanceAs (Decidable (Contiguous entry.netmask))
  | .delete _ => inferInstanceAs (Decidable True)
  | .setFlag _ _ _ _ => inferInstanceAs (Decidable True)

/-- What the lookup of an address and the addition and deletion of a route should do. -/
def RoutesRight (table : List AuRouteEntry) (address : BitVec 32) (entry : AuRouteEntry) : Prop :=
  LongestMatch table (fun e => has e.flags RTF_UP) (fun e => Matches e address)
      (fun e => maskLen e.netmask) auRoutePref (auRouteTableDoRouteLookup table address) ∧
    Restores AuRouteEntry.ifname auRouteTableAdd auRouteTableDelete table entry

def RoutesRight6 (table : List AuRouteEntry6) (address : Ip6Addr) (entry : AuRouteEntry6) : Prop :=
  LongestMatch table (fun e => has e.flags RTF_UP) (fun e => Matches6 e address)
      (fun e => e.prefixLen.toNat) auRoutePref6 (auRouteTableDoRouteLookup6 table address) ∧
    Restores AuRouteEntry6.ifname auRouteTable6Add auRouteTable6Delete table entry

theorem mem_modify {E : Type} {f : E → E} {t : List E} {i : ℕ} {e : E} (h : e ∈ t.modify i f) :
    ∃ o ∈ t, e = o ∨ e = f o := by
  obtain ⟨j, hj⟩ := List.mem_iff_getElem?.mp h
  rw [List.getElem?_modify] at hj
  obtain ⟨o, ho, he⟩ := Option.map_eq_some_iff.mp hj
  refine ⟨o, List.mem_of_getElem? ho, ?_⟩
  by_cases hij : i = j
  · exact Or.inr (by rw [← he, if_pos hij])
  · exact Or.inl (by rw [← he, if_neg hij])

/-- What each call leaves in the table has masks that were there or that of the new route. -/
theorem routeStep_masks {table : List AuRouteEntry} (h : ∀ e ∈ table, Contiguous e.netmask)
    {op : RouteOp} (hop : op.masked) : ∀ e ∈ routeStep table op, Contiguous e.netmask := by
  intro e he
  have hmod : ∀ {i : ℕ} {f : AuRouteEntry → AuRouteEntry}, (∀ o, (f o).netmask = o.netmask) →
      e ∈ table.modify i f → Contiguous e.netmask := by
    intro i f hf hm
    obtain ⟨o, ho, heq⟩ := mem_modify hm
    rcases heq with heq | heq
    · exact heq ▸ h o ho
    · rw [heq, hf]
      exact h o ho
  cases op with
  | add entry =>
    simp only [routeStep, auRouteTableAdd, tableAdd] at he
    split at he
    · exact h e he
    · split at he
      · apply hmod _ he
        exact fun _ => rfl
      · rcases List.mem_append.mp he with ht | hn
        · exact h e ht
        · rw [List.mem_singleton.mp hn]
          exact hop
  | delete entry => exact h e (List.mem_of_mem_eraseP he)
  | setFlag ifname dest netmask up =>
    simp only [routeStep, auRouteSetFlag4] at he
    split at he
    · apply hmod _ he
      exact fun _ => rfl
    · exact h e he

theorem built_masks {ops : List RouteOp} (h : ∀ op ∈ ops, op.masked) :
    ∀ e ∈ run routeStep [] ops, Contiguous e.netmask := by
  have hr : Respects (fun _ op => op ∈ ops) routeStep [] ops := respects_mem [] ops
  apply hr.invariant (I := fun table => ∀ e ∈ table, Contiguous e.netmask)
  · intro table op ht hm
    exact routeStep_masks ht (h op hm)
  · intro e he
    exact absurd he List.not_mem_nil

section Restore

variable {E : Type} {same : E → E → Bool} {update : E → E → E} {p : E → Bool}

/-- An addition of `x` and the removal of the first route with its prefix cancel out just if no
route has the prefix. -/
theorem eraseP_tableAdd_iff {x : E} (table : List E) (hx : p x) (hsame : ∀ old, same old x → p old)
    (hself : same x x) (hupdate : ∀ old, p old → p (update old x)) :
    (tableAdd same update table x).eraseP p = table ↔ ∀ r ∈ table, ¬ p r := by
  unfold tableAdd
  split
  case h_1 i hi =>
    obtain ⟨hlt, hsi, -⟩ := List.findIdx?_eq_some_iff_getElem.mp hi
    have hp : p table[i] := hsame _ hsi
    constructor
    · intro h
      have hmem : update table[i] x ∈ table.modify i fun old => update old x := by
        apply List.mem_of_getElem? (i := i)
        rw [List.getElem?_modify, List.getElem?_eq_getElem hlt]
        simp
      have hlen := List.length_eraseP_of_mem hmem (hupdate _ hp)
      rw [h, List.length_modify] at hlen
      omega
    · intro h
      exact absurd hp (h _ (List.getElem_mem hlt))
  case h_2 hnone =>
    have hout := List.findIdx?_eq_none_iff.mp hnone
    constructor
    · intro h r hr hpr
      rw [List.eraseP_append_left hpr _ hr] at h
      -- the new route would have been there already
      have hmem : x ∈ table := by
        rw [← h]
        exact List.mem_append_right _ (List.mem_singleton_self x)
      rw [hout x hmem] at hself
      exact Bool.false_ne_true hself
    · intro h
      rw [List.eraseP_append_right _ h, List.eraseP_cons_of_pos hx]
      exact List.append_nil table

/-- With the table everything on the other interfaces is restored. -/
theorem restores_iff_eq {ifname : E → String} {add delete : List E → E → List E} {table : List E}
    {entry : E} : Restores ifname add delete table entry ↔
      delete (add table entry) entry = table := by
  apply and_iff_left_of_imp
  intro h r hr _
  rw [h]
  exact hr

end Restore

theorem restores_iff (table : List AuRouteEntry) (entry : AuRouteEntry) :
    Restores AuRouteEntry.ifname auRouteTableAdd auRouteTableDelete table entry ↔
      ∀ r ∈ table, ¬ samePrefix r entry := by
  rw [restores_iff_eq]
  unfold auRouteTableDelete tableDelete auRouteTableAdd
  split
  · exact List.eraseP_eq_self_iff
  · apply eraseP_tableAdd_iff
    · simp [samePrefix]
    · intro old h
      simp only [Bool.decide_and, Bool.decide_eq_true, Bool.and_eq_true] at h
      exact h.1
    · simp [samePrefix]
    · exact fun _ h => h

theorem restores6_iff (table : List AuRouteEntry6) (entry : AuRouteEntry6) :
    Restores AuRouteEntry6.ifname auRouteTable6Add auRouteTable6Delete table entry ↔
      ∀ r ∈ table, ¬ samePrefix6 r entry := by
  rw [restores_iff_eq]
  unfold auRouteTable6Delete tableDelete auRouteTable6Add
  split
  · exact List.eraseP_eq_self_iff
  · apply eraseP_tableAdd_iff
    · simp [samePrefix6]
    · intro old h
      simp only [Bool.decide_and, Bool.decide_eq_true, Bool.and_eq_true] at h
      exact h.1
    · simp [samePrefix6]
    · exact fun _ h => h

/-- The lookup is a longest match in every table, and a route that is added and deleted leaves the
table as it was just if no route of the table has its prefix. -/
theorem routesRight_iff (ops : List RouteOp) (hops : ∀ op ∈ ops, op.masked)
    (address : BitVec 32) (entry : AuRouteEntry) (ops6 : List RouteOp6) (address6 : Ip6Addr)
    (entry6 : AuRouteEntry6) :
    (RoutesRight (run routeStep [] ops) address entry ↔
      ∀ r ∈ run routeStep [] ops, ¬ samePrefix r entry) ∧
    (RoutesRight6 (run routeStep6 [] ops6) address6 entry6 ↔
      ∀ r ∈ run routeStep6 [] ops6, ¬ samePrefix6 r entry6) := by
  constructor
  · rw [RoutesRight, restores_iff]
    exact and_iff_right (auRouteTableDoRouteLookup_longest (built_masks hops) address)
  · rw [RoutesRight6, restores6_iff]
    exact and_iff_right (auRouteTableDoRouteLookup6_longest _ address6)

/-- A default route and that of a network on one card, and another network on a second. -/
theorem routesRight_iff_networks : RoutesRight (run routeStep [] [
    .add ⟨"eth0", 0, 0, 0x0F02000A, 0x0202000A, RTF_GATEWAY⟩,
    .add ⟨"eth0", 0x0002000A, 0x00FFFFFF, 0x0F02000A, 0, RTF_CONNECTED⟩]) 0x0502000A
    ⟨"eth1", 0x0003000A, 0x00FFFFFF, 0x0F03000A, 0, RTF_CONNECTED⟩ :=
  (routesRight_iff _ (by decide) _ _ [] 0 ⟨"eth0", 0, 0, 0, 0, 0⟩).1.mpr (by decide)

/-- The default route of the first card goes with that of the second. -/
theorem not_routesRight : ¬ ∀ ops : List RouteOp, (∀ op ∈ ops, op.masked) → ∀ address entry,
    RoutesRight (run routeStep [] ops) address entry := by
  intro h
  have hr := (h [.add ⟨"eth0", 0, 0, 0x0F02000A, 0x0202000A, RTF_GATEWAY⟩] (by decide) 0
    ⟨"wlan0", 0, 0, 0x0F03000A, 0x0203000A, RTF_GATEWAY⟩).2.1
  revert hr
  decide

end Xeneva.Net.Route
