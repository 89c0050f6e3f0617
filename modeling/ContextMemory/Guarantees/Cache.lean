/-
The bounded cache over whole runs.

Its counts are exact and its limits hold after every operation (`cache_within_limits`). A hit is
what was last written under the key: eviction loses entries, it never brings one back
(`cache_hit`). What an insertion evicts goes before all it could have evicted instead, entries that
are not pinned before pinned ones and each by its last use, and not all of it could have stayed
(`insertion_evicts`).
-/

import ContextMemory.Hydra.Cache
import Mathlib.Algebra.Order.BigOperators.Group.List
import Mathlib.Algebra.GroupWithZero.Nat

namespace ContextMemory.Cache.BoundedGraphCache

/-! ### Exact counts -/

section Counts

variable {K V : Type} {xs ys : List (K × CacheEntry V)} {tenantEntries : List (String × Nat)}
  {tenant : String}

def bytesOf (entries : List (K × CacheEntry V)) : Nat :=
  (entries.map fun e => e.2.residentBytes).sum

def membersOf (entries : List (K × CacheEntry V)) (tenant : String) : Nat :=
  entries.countP fun e => e.2.tenant == tenant

/-- The counts of the tenants agree with the entries. -/
structure Counts (tenantEntries : List (String × Nat)) (entries : List (K × CacheEntry V)) : Prop where
  sorted : SortedMap.Sorted tenantEntries
  members : ∀ tenant, countOf tenantEntries tenant = membersOf entries tenant
  positive : ∀ count ∈ tenantEntries, 0 < count.2

theorem bytesOf_perm (h : xs.Perm ys) : bytesOf xs = bytesOf ys := (h.map _).sum_eq

theorem bytesOf_cons (e : K × CacheEntry V) : bytesOf (e :: xs) = e.2.residentBytes + bytesOf xs := by
  simp [bytesOf]

theorem membersOf_perm (h : xs.Perm ys) (tenant : String) :
    membersOf xs tenant = membersOf ys tenant := h.countP_eq _

theorem membersOf_cons (e : K × CacheEntry V) (tenant : String) :
    membersOf (e :: xs) tenant = membersOf xs tenant + if e.2.tenant = tenant then 1 else 0 := by
  simp [membersOf, List.countP_cons]

theorem Counts.perm (h : Counts tenantEntries xs) (hperm : xs.Perm ys) : Counts tenantEntries ys where
  sorted := h.sorted
  members tenant := (h.members tenant).trans (membersOf_perm hperm tenant)
  positive := h.positive

theorem countOf_decrementTenant (hsorted : SortedMap.Sorted tenantEntries) (tenant' : String) :
    countOf (decrementTenant tenant tenantEntries) tenant' =
      if tenant' = tenant then countOf tenantEntries tenant - 1 else countOf tenantEntries tenant' := by
  unfold decrementTenant countOf
  cases hget : SortedMap.get tenant tenantEntries with
  | none =>
      dsimp only
      split
      · rename_i heq
        rw [heq, hget]
        rfl
      · rfl
  | some count =>
      dsimp only
      by_cases hzero : count - 1 = 0
      · rw [if_pos hzero, hsorted.get_erase]
        split
        · exact hzero.symm
        · rfl
      · rw [if_neg hzero, hsorted.get_insert]
        split
        · rfl
        · rfl

/-- An entry less: its tenant is counted down, and forgotten at zero. -/
theorem Counts.decrement {e : K × CacheEntry V} (h : Counts tenantEntries (e :: xs)) :
    Counts (decrementTenant e.2.tenant tenantEntries) xs where
  sorted := by
    unfold decrementTenant
    split
    · split
      · exact h.sorted.erase
      · exact h.sorted.insert
    · exact h.sorted
  members tenant := by
    have hmembers := h.members tenant
    have hself := h.members e.2.tenant
    rw [membersOf_cons] at hmembers hself
    rw [countOf_decrementTenant h.sorted]
    split
    · rename_i heq
      subst heq
      rw [if_pos rfl] at hself
      omega
    · rename_i hne
      rw [if_neg (Ne.symm hne)] at hmembers
      omega
  positive count hcount := by
    unfold decrementTenant at hcount
    split at hcount
    · split at hcount
      · exact h.positive count (SortedMap.mem_erase.mp hcount).1
      · rename_i hpositive
        rcases SortedMap.mem_insert.mp hcount with rfl | hold
        · exact Nat.pos_of_ne_zero hpositive
        · exact h.positive count hold.1
    · exact h.positive count hcount

/-- An entry more: its tenant is counted up. -/
theorem Counts.increment (h : Counts tenantEntries xs) (e : K × CacheEntry V) :
    Counts (SortedMap.insert e.2.tenant (countOf tenantEntries e.2.tenant + 1) tenantEntries)
      (e :: xs) where
  sorted := h.sorted.insert
  members tenant := by
    have hmembers := h.members tenant
    have hself := h.members e.2.tenant
    unfold countOf at hmembers ⊢
    rw [membersOf_cons, h.sorted.get_insert]
    split
    · rename_i heq
      subst heq
      rw [if_pos rfl, Option.getD_some]
      omega
    · rename_i hne
      rw [if_neg (Ne.symm hne)]
      omega
  positive count hcount := by
    rcases SortedMap.mem_insert.mp hcount with rfl | hold
    · exact Nat.succ_pos _
    · exact h.positive count hold.1

/-- The limits of two caches are the same. -/
def SameLimits (c c' : BoundedGraphCache K V) : Prop :=
  c'.maxEntries = c.maxEntries ∧ c'.maxResidentBytes = c.maxResidentBytes ∧
    c'.maxEntriesPerTenant = c.maxEntriesPerTenant

theorem SameLimits.refl {c : BoundedGraphCache K V} : c.SameLimits c := ⟨rfl, rfl, rfl⟩

theorem SameLimits.trans {c c' c'' : BoundedGraphCache K V} (h : c.SameLimits c')
    (h' : c'.SameLimits c'') : c.SameLimits c'' :=
  ⟨h'.1.trans h.1, h'.2.1.trans h.2.1, h'.2.2.trans h.2.2⟩

/-! ### The order of eviction -/

/-- An entry that may be evicted for a tenant, or for the whole cache. -/
def Eligible (tenant : Option String) (e : K × CacheEntry V) : Prop := ∀ name ∈ tenant, name = e.2.tenant

/-- `e` is evicted no later than `e'`. -/
def Yields (e e' : K × CacheEntry V) : Prop :=
  e.2.pinned = false ∧ e'.2.pinned = true ∨
    e.2.pinned = e'.2.pinned ∧ e.2.lastAccess ≤ e'.2.lastAccess

theorem mem_candidates {c : BoundedGraphCache K V} {tenant : Option String} {allowPinned : Bool}
    {e : K × CacheEntry V} : e ∈ c.candidates tenant allowPinned ↔
      e ∈ c.entries ∧ Eligible tenant e ∧ (allowPinned = true ∨ e.2.pinned = false) := by
  simp only [candidates, List.mem_filter, Bool.and_eq_true, Bool.or_eq_true, Bool.not_eq_true',
    Eligible, Option.all_eq_true, beq_iff_eq, Option.mem_def]

end Counts

variable {K V : Type} [LinearOrder K] {c c' : BoundedGraphCache K V} {key : K}
  {tenant : String} {e : K × CacheEntry V}

/-- The bookkeeping of the cache agrees with its entries. -/
structure Sound (c : BoundedGraphCache K V) : Prop where
  sorted : SortedMap.Sorted c.entries
  resident : c.residentBytes = bytesOf c.entries
  counts : Counts c.tenantEntries c.entries

/-- The limits of the cache hold. -/
structure Within (c : BoundedGraphCache K V) : Prop where
  entries : c.entries.length ≤ c.maxEntries
  bytes : c.residentBytes ≤ c.maxResidentBytes
  tenants : ∀ limit ∈ c.maxEntriesPerTenant, ∀ tenant, membersOf c.entries tenant ≤ limit

/-- A cache with fewer entries is within the limits too. -/
theorem Within.sublist (h : c.Within) (hlimits : c.SameLimits c') (hsound : c.Sound)
    (hsound' : c'.Sound) (hsub : c'.entries.Sublist c.entries) : c'.Within where
  entries := by
    rw [hlimits.1]
    exact hsub.length_le.trans h.entries
  bytes := by
    have hle : bytesOf c'.entries ≤ bytesOf c.entries := (hsub.map _).sum_le_sum fun _ _ => Nat.zero_le _
    have hbytes := h.bytes
    rw [hsound.resident] at hbytes
    rw [hlimits.2.1, hsound'.resident]
    exact hle.trans hbytes
  tenants limit hlimit tenant :=
    (List.Sublist.countP_le hsub).trans (h.tenants limit (hlimits.2.2 ▸ hlimit) tenant)

/-! ### Removals -/

/-- What a removal does to a sound cache. -/
theorem remove_spec (h : c.Sound) (key : K) :
    (c.remove key).2.Sound ∧ (c.remove key).2.entries = SortedMap.erase key c.entries ∧
      c.SameLimits (c.remove key).2 ∧ (c.remove key).2.clock = c.clock := by
  unfold remove
  cases hget : SortedMap.get key c.entries with
  | none =>
      have hkeep : SortedMap.erase key c.entries = c.entries :=
        List.filter_eq_self.mpr fun e he => decide_eq_true (SortedMap.get_eq_none_iff.mp hget e he)
      exact ⟨h, hkeep.symm, .refl, rfl⟩
  | some entry =>
      have hperm := h.sorted.perm_erase (SortedMap.mem_of_get hget)
      refine ⟨⟨h.sorted.erase, ?_, (h.counts.perm hperm).decrement⟩, rfl, .refl, rfl⟩
      dsimp only
      rw [h.resident, bytesOf_perm hperm, bytesOf_cons]
      exact Nat.add_sub_cancel_left ..

/-! ### Evictions -/

/-- `c'` is what evictions leave of `c`. -/
structure Evicts (tenant : Option String) (c c' : BoundedGraphCache K V) : Prop where
  sound : c'.Sound
  limits : c.SameLimits c'
  clock : c'.clock = c.clock
  sublist : c'.entries.Sublist c.entries
  order : ∀ e ∈ c.entries, e ∉ c'.entries → Eligible tenant e ∧
    ∀ e' ∈ c'.entries, Eligible tenant e' → Yields e e'

theorem Evicts.refl (h : c.Sound) (tenant : Option String) : Evicts tenant c c :=
  ⟨h, .refl, rfl, List.Sublist.refl _, fun _ he hnot => absurd he hnot⟩

theorem Evicts.trans {tenant : Option String} {c'' : BoundedGraphCache K V}
    (h : Evicts tenant c c') (h' : Evicts tenant c' c'') : Evicts tenant c c'' where
  sound := h'.sound
  limits := h.limits.trans h'.limits
  clock := h'.clock.trans h.clock
  sublist := h'.sublist.trans h.sublist
  order e he hnot := by
    by_cases hmem : e ∈ c'.entries
    · exact h'.order e hmem hnot
    · obtain ⟨heligible, hyields⟩ := h.order e he hmem
      exact ⟨heligible, fun e' he' => hyields e' (h'.sublist.subset he')⟩

/-- One eviction takes an entry that yields to all it could have taken. -/
theorem evictOne_spec (h : c.Sound) {tenant : Option String} {allowPinned : Bool}
    (hevict : c.evictOne tenant allowPinned = some c') :
    ∃ e ∈ c.candidates tenant allowPinned, c'.Sound ∧ c.SameLimits c' ∧ c'.clock = c.clock ∧
      c'.entries = SortedMap.erase e.1 c.entries ∧
      ∀ e' ∈ c.candidates tenant allowPinned, e.2.lastAccess ≤ e'.2.lastAccess := by
  obtain ⟨e, he, rfl⟩ := Option.map_eq_some_iff.mp hevict
  obtain ⟨hsound, hentries, hlimits, hclock⟩ := remove_spec h e.1
  exact ⟨e, List.argmin_mem he, ⟨hsound.sorted, hsound.resident, hsound.counts⟩, hlimits, hclock,
    hentries, fun e' he' =>
      List.le_of_mem_argmin (f := fun e : K × CacheEntry V => e.2.lastAccess) he' he⟩

theorem evictOne_eq_none {tenant : Option String} {allowPinned : Bool}
    (h : c.evictOne tenant allowPinned = none) : c.candidates tenant allowPinned = [] :=
  List.argmin_eq_none.mp (Option.map_eq_none_iff.mp h)

/-- What an eviction takes, and that it is the next in the order of eviction. -/
theorem evict_spec (h : c.Sound) {tenant : Option String} (hevict : c.evict tenant = some c') :
    ∃ e ∈ c.entries, Evicts tenant c c' ∧ c'.entries = SortedMap.erase e.1 c.entries := by
  obtain ⟨e, he, hyields, hsound, hlimits, hclock, hentries⟩ : ∃ e, (e ∈ c.entries ∧ Eligible tenant e) ∧
      (∀ e' ∈ c.entries, Eligible tenant e' → Yields e e') ∧ c'.Sound ∧ c.SameLimits c' ∧
      c'.clock = c.clock ∧ c'.entries = SortedMap.erase e.1 c.entries := by
    rcases Option.or_eq_some_iff.mp hevict with hfree | ⟨hnone, hpinned⟩
    · obtain ⟨e, he, hsound, hlimits, hclock, hentries, hleast⟩ := evictOne_spec h hfree
      obtain ⟨hmem, heligible, hunpinned⟩ := mem_candidates.mp he
      have hpin : e.2.pinned = false := hunpinned.elim (fun h => by cases h) id
      refine ⟨e, ⟨hmem, heligible⟩, fun e' he' heligible' => ?_, hsound, hlimits, hclock, hentries⟩
      cases hpin' : e'.2.pinned with
      | true => exact .inl ⟨hpin, hpin'⟩
      | false =>
          exact .inr ⟨hpin.trans hpin'.symm,
            hleast e' (mem_candidates.mpr ⟨he', heligible', .inr hpin'⟩)⟩
    · obtain ⟨e, he, hsound, hlimits, hclock, hentries, hleast⟩ := evictOne_spec h hpinned
      obtain ⟨hmem, heligible, -⟩ := mem_candidates.mp he
      have hallPinned : ∀ e' ∈ c.entries, Eligible tenant e' → e'.2.pinned = true := by
        intro e' he' heligible'
        by_contra hfree
        have hcandidate : e' ∈ c.candidates tenant false :=
          mem_candidates.mpr ⟨he', heligible', .inr (Bool.eq_false_iff.mpr hfree)⟩
        rw [evictOne_eq_none hnone] at hcandidate
        cases hcandidate
      refine ⟨e, ⟨hmem, heligible⟩, fun e' he' heligible' => .inr ⟨?_, ?_⟩, hsound, hlimits, hclock,
        hentries⟩
      · rw [hallPinned e hmem heligible, hallPinned e' he' heligible']
      · exact hleast e' (mem_candidates.mpr ⟨he', heligible', .inl rfl⟩)
  refine ⟨e, he.1, ⟨hsound, hlimits, hclock, hentries ▸ List.filter_sublist, fun e₂ he₂ hnot => ?_⟩,
    hentries⟩
  have hkey : e₂.1 = e.1 := by
    by_contra hne
    exact hnot (hentries ▸ SortedMap.mem_erase.mpr ⟨he₂, hne⟩)
  obtain rfl := h.sorted.eq_of_key he₂ he.1 hkey
  exact ⟨he.2, fun e' he' => hyields e' (SortedMap.mem_erase.mp (hentries ▸ he')).1⟩

theorem evict_eq_none {tenant : Option String} (h : c.evict tenant = none) :
    ∀ e ∈ c.entries, ¬ Eligible tenant e := by
  intro e he heligible
  have hcandidate : e ∈ c.candidates tenant true := mem_candidates.mpr ⟨he, heligible, .inl rfl⟩
  rw [evictOne_eq_none (Option.or_eq_none_iff.mp h).2] at hcandidate
  cases hcandidate

/-- An entry less, in every count. -/
theorem erase_counts (tenant : String) (h : SortedMap.Sorted c.entries) (he : e ∈ c.entries)
    (hentries : c'.entries = SortedMap.erase e.1 c.entries) :
    c.entries.length = c'.entries.length + 1 ∧
      bytesOf c.entries = e.2.residentBytes + bytesOf c'.entries ∧
      membersOf c.entries tenant =
        membersOf c'.entries tenant + if e.2.tenant = tenant then 1 else 0 := by
  have hperm := h.perm_erase he
  rw [hentries]
  exact ⟨hperm.length_eq, (bytesOf_perm hperm).trans (bytesOf_cons e),
    (membersOf_perm hperm tenant).trans (membersOf_cons e tenant)⟩

/-- **The loop over the whole cache** meets the limits, and not every entry it
evicted could have stayed. -/
theorem enforceTotalLimit_spec {rounds : Nat} (h : c.Sound) (hrounds : c.entries.length ≤ rounds) :
    Evicts none c (enforceTotalLimit rounds c) ∧
      (enforceTotalLimit rounds c).entries.length ≤ c.maxEntries ∧
      (enforceTotalLimit rounds c).residentBytes ≤ c.maxResidentBytes ∧
      (enforceTotalLimit rounds c = c ∨ ∃ e ∈ c.entries, e ∉ (enforceTotalLimit rounds c).entries ∧
        (c.maxEntries < (enforceTotalLimit rounds c).entries.length + 1 ∨
          c.maxResidentBytes <
            (enforceTotalLimit rounds c).residentBytes + e.2.residentBytes)) := by
  induction rounds generalizing c with
  | zero =>
      have hempty : c.entries = [] := List.eq_nil_of_length_eq_zero (Nat.le_zero.mp hrounds)
      have hzero : c.residentBytes = 0 := by
        rw [h.resident, hempty]
        rfl
      unfold enforceTotalLimit
      exact ⟨.refl h none, by simp [hempty], by omega, .inl rfl⟩
  | succ rounds ih =>
      unfold enforceTotalLimit
      split
      · rename_i hlimit
        split
        · rename_i rest hevict
          obtain ⟨e, he, hevicts, hentries⟩ := evict_spec h hevict
          obtain ⟨hlength, hbytes, -⟩ := erase_counts "" h.sorted he hentries
          obtain ⟨hloop, hmax, hresident, hneeded⟩ := ih hevicts.sound (by omega)
          obtain ⟨hmaxEntries, hmaxBytes, -⟩ := hevicts.limits
          rw [hmaxEntries] at hmax hneeded
          rw [hmaxBytes] at hresident hneeded
          refine ⟨hevicts.trans hloop, hmax, hresident, .inr ?_⟩
          rcases hneeded with heq | ⟨e', he', hnot, hover⟩
          · -- The last round: what it evicted was one too many.
            refine ⟨e, he, ?_, ?_⟩
            · rw [heq, hentries]
              exact fun hmem => (SortedMap.mem_erase.mp hmem).2 rfl
            · rw [heq, hevicts.sound.resident]
              rw [h.resident, hbytes] at hlimit
              omega
          · exact ⟨e', hevicts.sublist.subset he', hnot, hover⟩
        · rename_i hnone
          have hempty : c.entries = [] := List.eq_nil_iff_forall_not_mem.mpr fun e he =>
            evict_eq_none hnone e he fun _ hname => by cases hname
          rw [h.resident, hempty] at hlimit
          rcases hlimit with hlimit | hlimit
          · exact absurd hlimit (Nat.not_lt_zero _)
          · exact absurd hlimit (Nat.not_lt_zero _)
      · rename_i hlimit
        obtain ⟨hentries, hbytes⟩ := not_or.mp hlimit
        exact ⟨.refl h none, Nat.le_of_not_lt hentries, Nat.le_of_not_lt hbytes, .inl rfl⟩

/-- **The loop within a tenant** meets the quota exactly, if it evicts at all. -/
theorem enforceTenantQuota_spec (tenant : String) (limit : Nat) {rounds : Nat} (h : c.Sound)
    (hrounds : c.entries.length ≤ rounds) :
    Evicts (some tenant) c (enforceTenantQuota tenant limit rounds c) ∧
      membersOf (enforceTenantQuota tenant limit rounds c).entries tenant ≤ limit ∧
      (enforceTenantQuota tenant limit rounds c = c ∨
        membersOf (enforceTenantQuota tenant limit rounds c).entries tenant = limit) := by
  induction rounds generalizing c with
  | zero =>
      have hempty : c.entries = [] := List.eq_nil_of_length_eq_zero (Nat.le_zero.mp hrounds)
      unfold enforceTenantQuota
      exact ⟨.refl h _, by simp [hempty, membersOf], .inl rfl⟩
  | succ rounds ih =>
      unfold enforceTenantQuota
      rw [h.counts.members tenant]
      split
      · rename_i hlimit
        split
        · rename_i rest hevict
          obtain ⟨e, he, hevicts, hentries⟩ := evict_spec h hevict
          obtain ⟨hlength, -, hmembers⟩ := erase_counts tenant h.sorted he hentries
          obtain ⟨hloop, hmax, hneeded⟩ := ih hevicts.sound (by omega)
          have hgone : e ∉ rest.entries := by
            rw [hentries]
            exact fun hmem => (SortedMap.mem_erase.mp hmem).2 rfl
          have howner : tenant = e.2.tenant := (hevicts.order e he hgone).1 tenant rfl
          rw [if_pos howner.symm] at hmembers
          refine ⟨hevicts.trans hloop, hmax, .inr ?_⟩
          rcases hneeded with heq | heq
          · rw [heq] at hmax ⊢
            omega
          · exact heq
        · rename_i hnone
          obtain ⟨e, he, howner⟩ := List.countP_pos_iff.mp (Nat.zero_lt_of_lt hlimit)
          refine absurd ?_ (evict_eq_none hnone e he)
          rintro name ⟨⟩
          exact (beq_iff_eq.mp howner).symm
      · rename_i hlimit
        exact ⟨.refl h _, Nat.le_of_not_lt hlimit, .inl rfl⟩

/-! ### Operations -/

theorem retain_spec (h : c.Sound) (keep : K → V → Bool) :
    (c.retain keep).Sound ∧ c.SameLimits (c.retain keep) ∧
      (c.retain keep).entries = c.entries.filter fun e => keep e.1 e.2.value := by
  have hfold : ∀ (keys : List K) (c : BoundedGraphCache K V), c.Sound →
      (keys.foldl (fun c key => (c.remove key).2) c).Sound ∧
        c.SameLimits (keys.foldl (fun c key => (c.remove key).2) c) ∧
        (keys.foldl (fun c key => (c.remove key).2) c).entries =
          c.entries.filter fun e => decide (e.1 ∉ keys) := by
    intro keys
    induction keys with
    | nil => exact fun c h => ⟨h, .refl, by simp⟩
    | cons key keys ih =>
        intro c h
        obtain ⟨hsound, hentries, hlimits, -⟩ := remove_spec h key
        obtain ⟨hsound', hlimits', hentries'⟩ := ih _ hsound
        refine ⟨hsound', hlimits.trans hlimits', hentries'.trans ?_⟩
        rw [hentries, SortedMap.erase, List.filter_filter]
        refine List.filter_congr fun e _ => ?_
        simp only [List.mem_cons, not_or, Bool.decide_and, ne_eq]
        exact Bool.and_comm _ _
  obtain ⟨hsound, hlimits, hentries⟩ :=
    hfold ((c.entries.filter fun e => !keep e.1 e.2.value).map Prod.fst) c h
  refine ⟨hsound, hlimits, hentries.trans (List.filter_congr fun e he => ?_)⟩
  cases hkeep : keep e.1 e.2.value with
  | true =>
      refine decide_eq_true fun hmem => ?_
      obtain ⟨e', he', hkey⟩ := List.mem_map.mp hmem
      obtain ⟨hmem', hdrop⟩ := List.mem_filter.mp he'
      obtain rfl := h.sorted.eq_of_key hmem' he hkey
      rw [hkeep] at hdrop
      cases hdrop
  | false =>
      refine decide_eq_false (not_not.mpr (List.mem_map.mpr ⟨e, ?_, rfl⟩))
      exact List.mem_filter.mpr ⟨he, by rw [hkeep]; rfl⟩

/-- A lookup changes nothing but the time of the last use. -/
theorem get_spec (h : c.Sound) (key : K) :
    (c.get key).2.Sound ∧ c.SameLimits (c.get key).2 ∧
      (c.get key).1 = (SortedMap.get key c.entries).map (fun entry => entry.value) ∧
      ((c.get key).2.entries.map fun e => (e.1, e.2.value)) =
        c.entries.map (fun e => (e.1, e.2.value)) ∧ ((c.Within) → (c.get key).2.Within) := by
  unfold get
  cases hget : SortedMap.get key c.entries with
  | none =>
      exact ⟨⟨h.sorted, h.resident, h.counts⟩, .refl, rfl, rfl, fun hw => ⟨hw.entries, hw.bytes, hw.tenants⟩⟩
  | some entry =>
      dsimp only
      have hview : ∀ {β : Type} (f : K × CacheEntry V → β),
          (∀ (e : K × CacheEntry V) (n : Nat), f (e.1, { e.2 with lastAccess := n }) = f e) →
          (SortedMap.modify key (fun e => { e with lastAccess := saturatingAdd c.clock 1 })
            c.entries).map f = c.entries.map f := by
        intro β f hf
        rw [SortedMap.modify, List.map_map]
        refine List.map_congr_left fun e _ => ?_
        dsimp only [Function.comp_apply]
        split
        · exact hf e _
        · rfl
      have hbytes : bytesOf (SortedMap.modify key
          (fun e => { e with lastAccess := saturatingAdd c.clock 1 }) c.entries) = bytesOf c.entries :=
        congrArg List.sum (hview (fun e => e.2.residentBytes) fun _ _ => rfl)
      have hmembers : ∀ tenant, membersOf (SortedMap.modify key
          (fun e => { e with lastAccess := saturatingAdd c.clock 1 }) c.entries) tenant =
            membersOf c.entries tenant := by
        intro tenant
        have htenants := congrArg (List.countP fun name => name == tenant)
          (hview (fun e => e.2.tenant) fun _ _ => rfl)
        rwa [List.countP_map, List.countP_map] at htenants
      have hsorted := h.sorted.modify (k := key)
        (f := fun e => { e with lastAccess := saturatingAdd c.clock 1 })
      refine ⟨⟨hsorted, h.resident.trans hbytes.symm, h.counts.sorted,
        fun tenant => ?_, h.counts.positive⟩, .refl, rfl, hview _ fun _ _ => rfl,
        fun hw => ⟨?_, hw.bytes, ?_⟩⟩
      · exact (h.counts.members tenant).trans (hmembers tenant).symm
      · exact (List.length_map _).trans_le hw.entries
      · exact fun limit hlimit tenant => (hmembers tenant).trans_le (hw.tenants limit hlimit tenant)

theorem bytesOf_erase_le (key : K) (c : BoundedGraphCache K V) :
    bytesOf (SortedMap.erase key c.entries) ≤ bytesOf c.entries :=
  (List.filter_sublist.map _).sum_le_sum fun _ _ => Nat.zero_le _

/-- What an insertion puts into a sound cache: one entry under its key, in place
of the last. -/
theorem put_spec (h : c.Sound) (key : K) (value : V) (tenant : String) (pinned : Bool) {bytes : Nat}
    (hfits : c.residentBytes + bytes ≤ usizeMax) :
    (c.put key value tenant pinned bytes).Sound ∧
      c.SameLimits (c.put key value tenant pinned bytes) ∧
      (c.put key value tenant pinned bytes).entries.Perm
        ((key, ⟨value, tenant, pinned, saturatingAdd c.clock 1, bytes⟩) ::
          SortedMap.erase key c.entries) := by
  obtain ⟨hsound, hentries, hlimits, -⟩ := remove_spec h key
  have hperm := SortedMap.insert_perm key
    (⟨value, tenant, pinned, saturatingAdd c.clock 1, bytes⟩ : CacheEntry V) (c.remove key).2.entries
  have htwice : SortedMap.erase key (SortedMap.erase key c.entries) = SortedMap.erase key c.entries := by
    simp [SortedMap.erase]
  rw [hentries, htwice] at hperm
  have hcounts : Counts (c.remove key).2.tenantEntries (SortedMap.erase key c.entries) :=
    hentries ▸ hsound.counts
  have hbytes : (c.remove key).2.residentBytes = bytesOf (SortedMap.erase key c.entries) :=
    hentries ▸ hsound.resident
  have hle := bytesOf_erase_le key c
  rw [← h.resident] at hle
  refine ⟨⟨hsound.sorted.insert, ?_, ?_⟩, hlimits, ?_⟩
  · unfold put
    dsimp only
    rw [hentries, bytesOf_perm hperm, bytesOf_cons, saturatingAdd, hbytes,
      Nat.min_eq_left (by omega), Nat.add_comm]
  · have hmore := hcounts.increment (key, ⟨value, tenant, pinned, saturatingAdd c.clock 1, bytes⟩)
    unfold put
    dsimp only
    rw [hentries]
    exact hmore.perm hperm.symm
  · unfold put
    dsimp only
    rw [hentries]
    exact hperm

/-- `c'` meets its quota because entries of the tenant went, and no more than had to. -/
def MeetsQuota (tenant : String) (c c' : BoundedGraphCache K V) : Prop :=
  Evicts (some tenant) c c' ∧
    (c' = c ∨ ∃ limit ∈ c.maxEntriesPerTenant, membersOf c'.entries tenant = limit)

/-- `c'` meets the limits of the whole cache because entries went that could not all have stayed. -/
def MeetsLimits (c c' : BoundedGraphCache K V) : Prop :=
  Evicts none c c' ∧
    (c' = c ∨ ∃ e ∈ c.entries, e ∉ c'.entries ∧
      (c.maxEntries < c'.entries.length + 1 ∨ c.maxResidentBytes < c'.residentBytes + e.2.residentBytes))

/-- Both loops, on a cache where the other tenants are within their quota. -/
theorem enforce_spec (h : c.Sound)
    (hothers : ∀ limit ∈ c.maxEntriesPerTenant, ∀ other, other ≠ tenant →
      membersOf c.entries other ≤ limit) :
    (c.enforce tenant).Within ∧
      ∃ mid, MeetsQuota tenant c mid ∧ MeetsLimits mid (c.enforce tenant) := by
  have hquota : ∃ mid, c.enforce tenant = enforceTotalLimit mid.entries.length mid ∧
      MeetsQuota tenant c mid ∧
      ∀ limit ∈ c.maxEntriesPerTenant, membersOf mid.entries tenant ≤ limit := by
    cases hlimit : c.maxEntriesPerTenant with
    | none =>
        refine ⟨c, ?_, ⟨.refl h _, .inl rfl⟩, fun limit hsome => by cases hsome⟩
        unfold enforce
        rw [hlimit]
    | some limit =>
        obtain ⟨hevicts, hle, hneeded⟩ :=
          enforceTenantQuota_spec tenant limit h le_rfl
        refine ⟨enforceTenantQuota tenant limit c.entries.length c, ?_, ⟨hevicts, ?_⟩, ?_⟩
        · unfold enforce
          rw [hlimit]
        · exact hneeded.imp id fun heq => ⟨limit, hlimit, heq⟩
        · rintro limit' ⟨⟩
          exact hle
  obtain ⟨mid, heq, hmeets, hle⟩ := hquota
  obtain ⟨hevicts, hentries, hbytes, hneeded⟩ := enforceTotalLimit_spec hmeets.1.sound le_rfl
  rw [← heq] at hevicts hentries hbytes hneeded
  have hlimits := hevicts.limits
  refine ⟨⟨?_, ?_, fun limit hlimit other => ?_⟩, mid, hmeets, hevicts, hneeded⟩
  · exact hentries.trans_eq hlimits.1.symm
  · exact hbytes.trans_eq hlimits.2.1.symm
  · rw [hlimits.2.2, hmeets.1.limits.2.2] at hlimit
    refine (List.Sublist.countP_le hevicts.sublist).trans ?_
    by_cases hsame : other = tenant
    · exact hsame ▸ hle limit hlimit
    · exact (List.Sublist.countP_le hmeets.1.sublist).trans (hothers limit hlimit other hsame)

/-- An operation fits a byte limit: the sum the cache forms of it does not overflow. -/
def Op.Fits (maxResidentBytes : Nat) : Op K V → Prop
  | .insertSized _ _ _ _ residentBytes => maxResidentBytes + residentBytes ≤ usizeMax
  | _ => True

/-- **An insertion**: what it puts, and what goes for it. -/
theorem insertSized_spec (h : c.Sound) (hwithin : c.Within) (hspace : c.maxEntries ≠ 0) (key : K)
    (value : V) (tenant : String) (pinned : Bool) {bytes : Nat}
    (hfits : c.maxResidentBytes + bytes ≤ usizeMax) :
    ∃ mid last, MeetsQuota tenant (c.put key value tenant pinned bytes) mid ∧ MeetsLimits mid last ∧
      last.Within ∧ c.insertSized key value tenant pinned bytes = last.get key := by
  have hbytes := hwithin.bytes
  have hroom : c.residentBytes + bytes ≤ usizeMax := by omega
  obtain ⟨hsound, hlimits, hperm⟩ := put_spec h key value tenant pinned hroom
  have hothers : ∀ limit ∈ (c.put key value tenant pinned bytes).maxEntriesPerTenant, ∀ other,
      other ≠ tenant → membersOf (c.put key value tenant pinned bytes).entries other ≤ limit := by
    intro limit hlimit other hne
    rw [membersOf_perm hperm, membersOf_cons, if_neg (Ne.symm hne)]
    exact (List.Sublist.countP_le List.filter_sublist).trans
      (hwithin.tenants limit (hlimits.2.2 ▸ hlimit) other)
  obtain ⟨hwithin', mid, hquota, htotal⟩ := enforce_spec hsound hothers
  refine ⟨mid, _, hquota, htotal, hwithin', ?_⟩
  unfold insertSized
  rw [if_neg hspace]

/-! ### Runs -/

/-- What every operation keeps. -/
theorem step_spec (h : c.Sound) (hwithin : c.Within) (op : Op K V)
    (hfits : op.Fits c.maxResidentBytes) :
    (c.step op).2.Sound ∧ (c.step op).2.Within ∧ c.SameLimits (c.step op).2 := by
  have hget : ∀ key, (c.get key).2.Sound ∧ (c.get key).2.Within ∧ c.SameLimits (c.get key).2 :=
    fun key =>
      have hspec := get_spec h key
      ⟨hspec.1, hspec.2.2.2.2 hwithin, hspec.2.1⟩
  cases op with
  | get key => exact hget key
  | getLatestBy predicate score =>
      unfold step getLatestBy
      dsimp only
      split
      · exact hget _
      · exact ⟨h, hwithin, .refl⟩
  | insertSized key value tenant pinned residentBytes =>
      by_cases hspace : c.maxEntries = 0
      · unfold step insertSized
        dsimp only
        rw [if_pos hspace]
        exact ⟨⟨h.sorted, h.resident, h.counts⟩,
          ⟨hwithin.entries, hwithin.bytes, hwithin.tenants⟩, .refl⟩
      · obtain ⟨mid, last, hquota, htotal, hlast, heq⟩ :=
          insertSized_spec h hwithin hspace key value tenant pinned hfits
        obtain ⟨hsound, hlimits, -, -, hkeep⟩ := get_spec htotal.1.sound key
        unfold step
        dsimp only
        rw [heq]
        refine ⟨hsound, hkeep hlast, ?_⟩
        have hput : c.SameLimits (c.put key value tenant pinned residentBytes) :=
          (remove_spec h key).2.2.1
        exact ((hput.trans hquota.1.limits).trans htotal.1.limits).trans hlimits
  | retain keep =>
      obtain ⟨hsound, hlimits, hentries⟩ := retain_spec h keep
      exact ⟨hsound, hwithin.sublist hlimits h hsound (hentries ▸ List.filter_sublist), hlimits⟩
  | remove key =>
      obtain ⟨hsound, hentries, hlimits, -⟩ := remove_spec h key
      exact ⟨hsound, hwithin.sublist hlimits h hsound (hentries ▸ List.filter_sublist), hlimits⟩

/-- A run keeps the bookkeeping and the limits. -/
theorem run_spec (maxEntries : Nat) (maxEntriesPerTenant : Option Nat)
    (maxResidentBytes : Nat) (ops : List (Op K V)) (hfits : ∀ op ∈ ops, op.Fits maxResidentBytes) :
    (run maxEntries maxEntriesPerTenant maxResidentBytes ops).Sound ∧
      (run maxEntries maxEntriesPerTenant maxResidentBytes ops).Within ∧
      (newWithByteLimit maxEntries maxEntriesPerTenant maxResidentBytes).SameLimits
        (run maxEntries maxEntriesPerTenant maxResidentBytes ops) := by
  induction ops using List.reverseRecOn with
  | nil =>
      refine ⟨⟨List.Pairwise.nil, rfl, List.Pairwise.nil, fun _ => rfl, fun _ hcount => ?_⟩,
        ⟨Nat.zero_le _, Nat.zero_le _, fun _ _ _ => Nat.zero_le _⟩, .refl⟩
      cases hcount
  | append_singleton ops op ih =>
      obtain ⟨hsound, hwithin, hlimits⟩ := ih fun op' hop' => hfits op' (List.mem_append_left _ hop')
      have hfit := hfits op (List.mem_append_right _ List.mem_cons_self)
      obtain ⟨hsound', hwithin', hlimits'⟩ :=
        step_spec hsound hwithin op (by rw [hlimits.2.1]; exact hfit)
      unfold run at hsound hwithin hlimits hsound' hwithin' hlimits' ⊢
      rw [List.foldl_append]
      exact ⟨hsound', hwithin', hlimits.trans hlimits'⟩

/-- **The cache stays within its limits**: after any run of operations on a new
cache, the bytes and the entries of each tenant are counted exactly, there are
at most `maxEntries` entries of at most `maxResidentBytes` in all, and no tenant
has more entries than its quota. The sizes of an operation are assumed to fit:
their sums stay below the largest `usize`. -/
theorem cache_within_limits (maxEntries : Nat) (maxEntriesPerTenant : Option Nat)
    (maxResidentBytes : Nat) (ops : List (Op K V)) (hfits : ∀ op ∈ ops, op.Fits maxResidentBytes) :
    let c := run maxEntries maxEntriesPerTenant maxResidentBytes ops
    c.Sound ∧ c.entries.length ≤ maxEntries ∧ bytesOf c.entries ≤ maxResidentBytes ∧
      ∀ limit ∈ maxEntriesPerTenant, ∀ tenant, membersOf c.entries tenant ≤ limit := by
  intro c
  obtain ⟨hsound, hwithin, hentries, hbytes, htenants⟩ :=
    run_spec maxEntries maxEntriesPerTenant maxResidentBytes ops hfits
  refine ⟨hsound, hwithin.entries.trans_eq hentries, ?_, fun limit hlimit => ?_⟩
  · exact (hsound.resident ▸ hwithin.bytes).trans_eq hbytes
  · exact hwithin.tenants limit (htenants ▸ hlimit)

/-- Two tenants, a pinned entry, and one entry more than fits. -/
def crowded : List (Op Nat Nat) :=
  [.insertSized 1 10 "a" true 4, .insertSized 2 20 "b" false 4, .get 1, .insertSized 3 30 "a" false 4]

theorem crowded_fits : ∀ op ∈ crowded, op.Fits 8 := by
  simp [crowded, Op.Fits, usizeMax]

/-- A run with one entry more than the bytes allow. The unpinned entry goes, and
the counts are those of the two that stay. -/
theorem cache_within_limits_crowded :
    ((run 3 none 8 crowded).Sound ∧ (run 3 none 8 crowded).entries.length ≤ 3 ∧
      bytesOf (run 3 none 8 crowded).entries ≤ 8 ∧
      ∀ limit ∈ (none : Option Nat), ∀ tenant, membersOf (run 3 none 8 crowded).entries tenant ≤ limit) ∧
    (run 3 none 8 crowded).entries.map Prod.fst = [1, 3] :=
  ⟨cache_within_limits 3 none 8 crowded crowded_fits, by decide⟩

/-- **What an insertion evicts**, in any run: first entries of its own tenant,
down to the quota exactly, then entries of the whole cache, of which one at
least could not have stayed; each goes before all that stay and that the same
loop could have taken. A cache that may hold no entry at all evicts nothing, and
is left out. -/
theorem insertion_evicts (maxEntries : Nat) (maxEntriesPerTenant : Option Nat)
    (maxResidentBytes : Nat) (ops : List (Op K V)) (key : K) (value : V) (tenant : String)
    (pinned : Bool) (bytes : Nat) (hspace : maxEntries ≠ 0)
    (hfits : ∀ op ∈ ops, op.Fits maxResidentBytes) (hroom : maxResidentBytes + bytes ≤ usizeMax) :
    ∃ mid last : BoundedGraphCache K V,
      MeetsQuota tenant ((run maxEntries maxEntriesPerTenant maxResidentBytes ops).put
        key value tenant pinned bytes) mid ∧
      MeetsLimits mid last ∧
      (run maxEntries maxEntriesPerTenant maxResidentBytes ops).insertSized
        key value tenant pinned bytes = last.get key := by
  obtain ⟨hsound, hwithin, hlimits⟩ :=
    run_spec maxEntries maxEntriesPerTenant maxResidentBytes ops hfits
  have hspace' : (run maxEntries maxEntriesPerTenant maxResidentBytes ops).maxEntries ≠ 0 := by
    rw [hlimits.1]
    exact hspace
  obtain ⟨mid, last, hquota, htotal, -, heq⟩ := insertSized_spec hsound hwithin hspace' key value
    tenant pinned (by rw [hlimits.2.1]; exact hroom)
  exact ⟨mid, last, hquota, htotal, heq⟩

/-- Both loops evict: the pinned entry goes for the quota, the entry last read
for the bytes. -/
theorem insertion_evicts_crowded : (∃ mid last : BoundedGraphCache Nat Nat,
      MeetsQuota "a" ((run 3 (some 1) 8 (crowded.take 3)).put 3 30 "a" true 8) mid ∧
      MeetsLimits mid last ∧
      (run 3 (some 1) 8 (crowded.take 3)).insertSized 3 30 "a" true 8 = last.get 3) ∧
    ((run 3 (some 1) 8 (crowded.take 3)).insertSized 3 30 "a" true 8).2.entries.map Prod.fst = [3] := by
  refine ⟨insertion_evicts 3 (some 1) 8 (crowded.take 3) 3 30 "a" true 8 (by decide) ?_ ?_, by decide⟩
  · exact fun op hop => crowded_fits op (List.mem_of_mem_take hop)
  · exact Nat.le_of_ble_eq_true rfl

/-! ### The cache without limits -/

/-- A store that keeps every value under its last key. -/
def Op.apply (store : K → Option V) : Op K V → K → Option V
  | .get _ => store
  | .getLatestBy _ _ => store
  | .insertSized key value _ _ _ => Function.update store key (some value)
  | .retain keep => fun key => (store key).filter (keep key)
  | .remove key => Function.update store key none

/-- What a run of operations leaves in it. -/
def written (ops : List (Op K V)) : K → Option V := ops.foldl Op.apply fun _ => none

/-- A hit the store accounts for. `entries` are those of the cache: of them a search returns one
with the highest score. -/
def Op.Hits (store : K → Option V) (entries : List (K × CacheEntry V)) : Op K V → V → Prop
  | .get key, value => store key = some value
  | .getLatestBy predicate score, value => ∃ key, store key = some value ∧
      predicate key value = true ∧ ∀ e ∈ entries, predicate e.1 e.2.value = true →
        score e.1 e.2.value ≤ score key value
  | .insertSized _ inserted _ _ _, value => value = inserted
  | .retain _, _ => False
  | .remove key, value => store key = some value

/-- The cache holds a part of the store. -/
def Agrees (store : K → Option V) (entries : List (K × CacheEntry V)) : Prop :=
  ∀ e ∈ entries, store e.1 = some e.2.value

theorem get_agrees {store : K → Option V} (h : c.Sound) (hagrees : Agrees store c.entries) (key : K) :
    Agrees store (c.get key).2.entries ∧ ∀ value ∈ (c.get key).1, store key = some value := by
  obtain ⟨-, -, hanswer, hview, -⟩ := get_spec h key
  constructor
  · intro e he
    have hmem : (e.1, e.2.value) ∈ (c.get key).2.entries.map fun e => (e.1, e.2.value) :=
      List.mem_map_of_mem he
    rw [hview] at hmem
    obtain ⟨e', he', heq⟩ := List.mem_map.mp hmem
    obtain ⟨hkey, hvalue⟩ := Prod.mk.inj heq
    rw [← hkey, ← hvalue]
    exact hagrees e' he'
  · intro value hvalue
    rw [hanswer] at hvalue
    obtain ⟨entry, hentry, rfl⟩ := Option.map_eq_some_iff.mp hvalue
    exact hagrees (key, entry) (SortedMap.mem_of_get hentry)

/-- An operation on the cache and on the store. -/
theorem step_agrees {store : K → Option V} (h : c.Sound) (hwithin : c.Within) (op : Op K V)
    (hfits : op.Fits c.maxResidentBytes) (hagrees : Agrees store c.entries) :
    Agrees (op.apply store) (c.step op).2.entries ∧
      ∀ value ∈ (c.step op).1, op.Hits store c.entries value := by
  cases op with
  | get key => exact get_agrees h hagrees key
  | getLatestBy predicate score =>
      unfold step getLatestBy
      dsimp only
      split
      · rename_i e hbest
        obtain ⟨hmem, hpredicate⟩ := List.mem_filter.mp (List.mem_reverse.mp (List.argmax_mem hbest))
        obtain ⟨hkeep, -⟩ := get_agrees h hagrees e.1
        refine ⟨hkeep, fun value hvalue => ?_⟩
        rw [(get_spec h e.1).2.2.1, h.sorted.get_of_mem (v := e.2) hmem] at hvalue
        obtain rfl := Option.some.inj hvalue
        refine ⟨e.1, hagrees e hmem, hpredicate, fun e' he' hpredicate' => ?_⟩
        exact List.le_of_mem_argmax (f := fun e : K × CacheEntry V => score e.1 e.2.value)
          (List.mem_reverse.mpr (List.mem_filter.mpr ⟨he', hpredicate'⟩)) hbest
      · exact ⟨hagrees, fun value hvalue => by cases hvalue⟩
  | insertSized key value tenant pinned residentBytes =>
      by_cases hspace : c.maxEntries = 0
      · have hempty : c.entries = [] :=
          List.eq_nil_of_length_eq_zero (Nat.le_zero.mp (hspace ▸ hwithin.entries))
        unfold step insertSized
        dsimp only
        rw [if_pos hspace]
        refine ⟨fun e he => ?_, fun value hvalue => by cases hvalue⟩
        unfold rejectTenant at he
        dsimp only at he
        rw [hempty] at he
        cases he
      · obtain ⟨mid, last, hquota, htotal, -, heq⟩ :=
          insertSized_spec h hwithin hspace key value tenant pinned hfits
        have hroom : c.residentBytes + residentBytes ≤ usizeMax :=
          (Nat.add_le_add_right hwithin.bytes _).trans hfits
        obtain ⟨-, -, hperm⟩ := put_spec h key value tenant pinned hroom
        -- What stays was put or was there before, under another key.
        have hlast : Agrees (Function.update store key (some value)) last.entries := by
          intro e he
          have hput := hperm.mem_iff.mp (hquota.1.sublist.subset (htotal.1.sublist.subset he))
          rcases List.mem_cons.mp hput with rfl | hold
          · exact Function.update_self ..
          · obtain ⟨hmem, hne⟩ := SortedMap.mem_erase.mp hold
            rw [Function.update_of_ne hne]
            exact hagrees e hmem
        obtain ⟨hkeep, hhit⟩ := get_agrees htotal.1.sound hlast key
        unfold step
        dsimp only
        rw [heq]
        refine ⟨hkeep, fun value' hvalue' => ?_⟩
        have hself := hhit value' hvalue'
        rw [Function.update_self] at hself
        exact (Option.some.inj hself).symm
  | retain keep =>
      refine ⟨fun e he => ?_, fun value hvalue => by cases hvalue⟩
      have hfilter := (retain_spec h keep).2.2
      obtain ⟨hmem, hkept⟩ := List.mem_filter.mp (hfilter ▸ he : e ∈ _)
      exact (congrArg (Option.filter (keep e.1)) (hagrees e hmem)).trans (if_pos hkept)
  | remove key =>
      refine ⟨fun e he => ?_, fun value hvalue => ?_⟩
      · have herase := (remove_spec h key).2.1
        obtain ⟨hmem, hne⟩ := SortedMap.mem_erase.mp (herase ▸ he : e ∈ _)
        exact (Function.update_of_ne hne ..).trans (hagrees e hmem)
      · unfold step remove at hvalue
        dsimp only at hvalue
        split at hvalue
        · rename_i entry hentry
          obtain rfl := Option.some.inj hvalue
          exact hagrees (key, entry) (SortedMap.mem_of_get hentry)
        · cases hvalue

/-- A run of operations on the cache and on the store. -/
theorem run_agrees (maxEntries : Nat) (maxEntriesPerTenant : Option Nat) (maxResidentBytes : Nat)
    (ops : List (Op K V)) (hfits : ∀ op ∈ ops, op.Fits maxResidentBytes) :
    Agrees (written ops) (run maxEntries maxEntriesPerTenant maxResidentBytes ops).entries := by
  induction ops using List.reverseRecOn with
  | nil => exact fun e he => by cases he
  | append_singleton ops op ih =>
      have hfits' : ∀ op ∈ ops, op.Fits maxResidentBytes :=
        fun op hop => hfits op (List.mem_append_left _ hop)
      obtain ⟨hsound, hwithin, hlimits⟩ :=
        run_spec maxEntries maxEntriesPerTenant maxResidentBytes ops hfits'
      have hfit : op.Fits (run maxEntries maxEntriesPerTenant maxResidentBytes ops).maxResidentBytes := by
        rw [hlimits.2.1]
        exact hfits op (List.mem_append_right _ List.mem_cons_self)
      have hstep := (step_agrees hsound hwithin op hfit (ih hfits')).1
      unfold written run at hstep ⊢
      rw [List.foldl_append, List.foldl_append]
      exact hstep

/-- **A hit is what was last written**: whatever an operation returns at the end
of a run is the value that a store without limits holds there, and of a search
the best of those the cache holds. Limits cost hits, never values. -/
theorem cache_hit (maxEntries : Nat) (maxEntriesPerTenant : Option Nat) (maxResidentBytes : Nat)
    (ops : List (Op K V)) (op : Op K V) (value : V) (hfits : ∀ op ∈ ops, op.Fits maxResidentBytes)
    (hfit : op.Fits maxResidentBytes)
    (hhit : ((run maxEntries maxEntriesPerTenant maxResidentBytes ops).step op).1 = some value) :
    op.Hits (written ops) (run maxEntries maxEntriesPerTenant maxResidentBytes ops).entries value := by
  obtain ⟨hsound, hwithin, hlimits⟩ :=
    run_spec maxEntries maxEntriesPerTenant maxResidentBytes ops hfits
  have hlast : op.Fits (run maxEntries maxEntriesPerTenant maxResidentBytes ops).maxResidentBytes := by
    rw [hlimits.2.1]
    exact hfit
  have hagrees := run_agrees maxEntries maxEntriesPerTenant maxResidentBytes ops hfits
  exact (step_agrees hsound hwithin op hlast hagrees).2 value hhit

/-- The best of what the cache holds, the last entry left out: it is the value
of the entry that stayed. -/
theorem cache_hit_crowded : Op.Hits (written crowded) (run 3 none 8 crowded).entries
    (.getLatestBy (fun key _ => key ≠ 3) fun _ value => value) 10 :=
  cache_hit 3 none 8 crowded _ 10 crowded_fits trivial (by decide)

end ContextMemory.Cache.BoundedGraphCache
