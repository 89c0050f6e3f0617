/-
The ranking.

Seeding numbers the facts by position, the ones found by the vector search first, so a fact that
is at least as good as another in every channel stands before it, and no tie can turn them around
(`ranking_respects_dominance`).
-/

import Mathlib.Algebra.Order.Field.Basic
import Mathlib.Tactic.Linarith
import ContextMemory.Retrieval.Fusion
import ContextMemory.Guarantees.Scheduling

namespace ContextMemory

/-! ### Seeding -/

/-- What seeding says of a fact: its id and its two ranks. -/
abbrev Standing := String × Option Nat × Option Nat

def ScoredFact.standing (fact : ScoredFact) : Standing :=
  (fact.factId, fact.semanticRank, fact.keywordRank)

/-- The order of seeding: by the vector search, then by the words. -/
def Earlier (a b : Standing) : Prop :=
  a.1 ≠ b.1 ∧ (∀ r, a.2.2 = some r → b.2.2 ≠ some r) ∧
    ((∃ r, a.2.1 = some r ∧ ∀ r', b.2.1 = some r' → r < r') ∨
      (a.2.1 = none ∧ b.2.1 = none ∧ ∃ r, a.2.2 = some r ∧ ∀ r', b.2.2 = some r' → r < r'))

/-- Seeds in the order of seeding, with ranks between 1 and `n`; each one was found. -/
structure SeededTo (semantic keyword : Nat) (standings : List Standing) : Prop where
  order : standings.Pairwise Earlier
  found : ∀ a ∈ standings, a.2.1 = none → a.2.2 ≠ none
  semantic_bound : ∀ a ∈ standings, ∀ r, a.2.1 = some r → 0 < r ∧ r ≤ semantic
  keyword_bound : ∀ a ∈ standings, ∀ r, a.2.2 = some r → 0 < r ∧ r ≤ keyword

section Seeding

variable {n m : Nat} {facts : List ScoredFact}

/-- A loop over numbered items, from an invariant of the number. -/
theorem foldl_enumerate {α β : Type} {P : Nat → β → Prop} {f : β → α × Nat → β}
    (hstep : ∀ n x acc, P n acc → P (n + 1) (f acc (x, n + 1))) (xs : List α) {init : β}
    (hinit : P 0 init) : P xs.length ((enumerate xs).foldl f init) := by
  suffices h : ∀ (xs : List α) (k : Nat) (init : β), P k init →
      P (k + xs.length) (((xs.zipIdx k).map fun item => (item.1, item.2 + 1)).foldl f init) by
    have hall := h xs 0 init hinit
    rwa [Nat.zero_add] at hall
  intro xs
  induction xs with
  | nil => exact fun k init h => h
  | cons x xs ih =>
      intro k init h
      have hrest := ih (k + 1) _ (hstep k x init h)
      rw [List.length_cons, ← Nat.add_assoc, Nat.add_right_comm]
      exact hrest

theorem standings_upsert {factId : String} {fact fact' : ScoredFact}
    (hfind : Ordered.find ScoredFact.factId factId facts = some fact)
    (hsame : fact'.standing = fact.standing) :
    (Ordered.upsert ScoredFact.factId fact' facts).map ScoredFact.standing =
      facts.map ScoredFact.standing := by
  have hid : fact'.factId = factId := (congrArg Prod.fst hsame).trans (Ordered.find_eq_some hfind).2
  obtain ⟨before, after, rfl, hupsert⟩ := Ordered.upsert_of_find hfind hid
  rw [hupsert, List.map_append, List.map_append, List.map_cons, List.map_cons, hsame]

theorem betterRank_of_le {r position : Nat} (h : r ≤ position) :
    betterRank (some r) position = r := Nat.min_eq_left h

/-- A new fact after the others. -/
theorem SeededTo.append {standings : List Standing} {a : Standing} {n' m' : Nat}
    (h : SeededTo n m standings) (hlast : ∀ b ∈ standings, Earlier b a)
    (hfound : a.2.1 = none → a.2.2 ≠ none) (hn : n ≤ n') (hm : m ≤ m')
    (hsemantic : ∀ r, a.2.1 = some r → 0 < r ∧ r ≤ n')
    (hkeyword : ∀ r, a.2.2 = some r → 0 < r ∧ r ≤ m') : SeededTo n' m' (standings ++ [a]) := by
  have hmem : ∀ {P : Standing → Prop}, (∀ b ∈ standings, P b) → P a → ∀ b ∈ standings ++ [a], P b := by
    intro P hold hnew b hb
    rcases List.mem_append.mp hb with hb | hb
    · exact hold b hb
    · exact List.mem_singleton.mp hb ▸ hnew
  refine ⟨List.pairwise_append.mpr ⟨h.order, List.pairwise_singleton _ _, ?_⟩, ?_, ?_, ?_⟩
  · intro b hb c hc
    exact List.mem_singleton.mp hc ▸ hlast b hb
  · exact hmem h.found hfound
  · refine hmem (fun b hb r hr => ?_) hsemantic
    obtain ⟨hpos, hle⟩ := h.semantic_bound b hb r hr
    exact ⟨hpos, hle.trans hn⟩
  · refine hmem (fun b hb r hr => ?_) hkeyword
    obtain ⟨hpos, hle⟩ := h.keyword_bound b hb r hr
    exact ⟨hpos, hle.trans hm⟩

theorem SeededTo.mono {standings : List Standing} {n' m' : Nat} (h : SeededTo n m standings)
    (hn : n ≤ n') (hm : m ≤ m') : SeededTo n' m' standings where
  order := h.order
  found := h.found
  semantic_bound a ha r hr :=
    ⟨(h.semantic_bound a ha r hr).1, (h.semantic_bound a ha r hr).2.trans hn⟩
  keyword_bound a ha r hr :=
    ⟨(h.keyword_bound a ha r hr).1, (h.keyword_bound a ha r hr).2.trans hm⟩

/-- A fact of the vector search keeps its place when the words give it a rank
too. -/
theorem SeededTo.replace {before after : List Standing} {a : Standing} {r : Nat}
    (h : SeededTo n m (before ++ a :: after)) (hr : a.2.1 = some r) :
    SeededTo n (m + 1) (before ++ (a.1, a.2.1, some (m + 1)) :: after) := by
  have hbound : ∀ b ∈ before ++ a :: after, b.2.2 ≠ some (m + 1) := by
    intro b hb hkeyword
    have hle := (h.keyword_bound b hb _ hkeyword).2
    omega
  have hmem : ∀ {P : Standing → Prop}, (∀ b ∈ before ++ a :: after, P b) →
      P (a.1, a.2.1, some (m + 1)) →
      ∀ b ∈ before ++ (a.1, a.2.1, some (m + 1)) :: after, P b := by
    intro P hold hnew b hb
    simp only [List.mem_append, List.mem_cons] at hb hold
    rcases hb with hb | rfl | hb
    · exact hold b (Or.inl hb)
    · exact hnew
    · exact hold b (Or.inr (Or.inr hb))
  have ha : a ∈ before ++ a :: after := by simp
  obtain ⟨hbefore, hrest, hcross⟩ := List.pairwise_append.mp h.order
  obtain ⟨hafter, hrest⟩ := List.pairwise_cons.mp hrest
  refine ⟨List.pairwise_append.mpr ⟨hbefore, List.pairwise_cons.mpr ⟨?_, hrest⟩, ?_⟩, ?_, ?_, ?_⟩
  · intro c hc
    obtain ⟨hid, -, horder⟩ := hafter c hc
    refine ⟨hid, fun r' hr' hsame => hbound c (by simp [hc]) (hsame.trans hr'.symm), ?_⟩
    rcases horder with hfirst | ⟨hnone, -⟩
    · exact Or.inl hfirst
    · rw [hr] at hnone
      cases hnone
  · intro b hb c hc
    rcases List.mem_cons.mp hc with rfl | hc
    · obtain ⟨hid, -, horder⟩ := hcross b hb a List.mem_cons_self
      refine ⟨hid, fun r' hr' hsame => hbound b (by simp [hb]) (hr'.trans hsame.symm), ?_⟩
      rcases horder with hfirst | ⟨-, hnone, -⟩
      · exact Or.inl hfirst
      · rw [hr] at hnone
        cases hnone
    · exact hcross b hb c (List.mem_cons_of_mem _ hc)
  · exact hmem h.found fun _ hnone => by cases hnone
  · exact hmem h.semantic_bound (h.semantic_bound a ha)
  · refine hmem (h.mono le_rfl (Nat.le_succ m)).keyword_bound fun r' hr' => ?_
    cases hr'
    omega

theorem ne_of_not_found {factId : String} {a : Standing}
    (hfind : Ordered.find ScoredFact.factId factId facts = none)
    (ha : a ∈ facts.map ScoredFact.standing) : a.1 ≠ factId := by
  rintro rfl
  refine Ordered.find_eq_none.mp hfind ?_
  obtain ⟨fact, hfact, rfl⟩ := List.mem_map.mp ha
  exact List.mem_map_of_mem hfact

/-- A row of the vector search. -/
theorem SeededTo.semantic (h : SeededTo n 0 (facts.map ScoredFact.standing))
    (row : String × Option Rat) :
    SeededTo (n + 1) 0 ((seedSemantic facts (row, n + 1)).map ScoredFact.standing) := by
  have hranked : ∀ a ∈ facts.map ScoredFact.standing, ∃ r, a.2.1 = some r ∧ r ≤ n := by
    intro a ha
    have hkeyword : a.2.2 = none := by
      cases hr : a.2.2 with
      | none => rfl
      | some r =>
          obtain ⟨hpos, hzero⟩ := h.keyword_bound a ha r hr
          omega
    obtain ⟨r, hr⟩ := Option.ne_none_iff_exists'.mp fun hnone => h.found a ha hnone hkeyword
    exact ⟨r, hr, (h.semantic_bound a ha r hr).2⟩
  obtain ⟨factId, distance⟩ := row
  unfold seedSemantic
  dsimp only
  split
  · rename_i hfind
    rw [Ordered.upsert_of_not_found hfind, List.map_append]
    refine h.append (a := (factId, some (n + 1), none)) ?_ (fun hnone => by cases hnone)
      (Nat.le_succ n) le_rfl ?_ (fun r hr => by cases hr)
    · intro b hb
      obtain ⟨r, hr, hle⟩ := hranked b hb
      refine ⟨ne_of_not_found hfind hb, fun r' hr' => by simp, Or.inl ⟨r, hr, fun r' hr' => ?_⟩⟩
      cases hr'
      omega
    · intro r hr
      cases hr
      omega
  · -- a repeated row comes later and changes no rank
    rename_i fact hfind
    obtain ⟨r, hr, hle⟩ := hranked fact.standing (List.mem_map_of_mem (Ordered.find_eq_some hfind).1)
    have hrank : fact.semanticRank = some r := hr
    rw [standings_upsert hfind]
    · exact h.mono (Nat.le_succ n) le_rfl
    · simp only [ScoredFact.standing, hrank, betterRank_of_le (hle.trans (Nat.le_succ n))]

/-- A row of the full-text search. -/
theorem SeededTo.keyword (h : SeededTo n m (facts.map ScoredFact.standing))
    (row : String × String × Rat) :
    SeededTo n (m + 1) ((seedKeyword facts (row, m + 1)).map ScoredFact.standing) := by
  obtain ⟨factId, rawText, rank⟩ := row
  have hfresh : ∀ a ∈ facts.map ScoredFact.standing, a.2.2 ≠ some (m + 1) := by
    intro a ha hr
    have hle := (h.keyword_bound a ha _ hr).2
    omega
  unfold seedKeyword
  dsimp only
  split
  · rename_i hfind
    rw [Ordered.upsert_of_not_found hfind, List.map_append]
    refine h.append (a := (factId, none, some (m + 1))) ?_ (fun _ hnone => by cases hnone) le_rfl
      (Nat.le_succ m) (fun r hr => by cases hr) ?_
    · intro b hb
      refine ⟨ne_of_not_found hfind hb, ?_, ?_⟩
      · intro r hr hsame
        exact hfresh b hb (hr.trans hsame.symm)
      · cases hsemantic : b.2.1 with
        | some r => exact Or.inl ⟨r, rfl, fun r' hr' => by cases hr'⟩
        | none =>
            obtain ⟨r, hr⟩ := Option.ne_none_iff_exists'.mp (h.found b hb hsemantic)
            refine Or.inr ⟨rfl, rfl, r, hr, fun r' hr' => ?_⟩
            have hle := (h.keyword_bound b hb r hr).2
            cases hr'
            omega
    · intro r hr
      cases hr
      omega
  · rename_i fact hfind
    have hfact : fact.standing ∈ facts.map ScoredFact.standing :=
      List.mem_map_of_mem (Ordered.find_eq_some hfind).1
    cases hkeyword : fact.keywordRank with
    | some r =>
        have hle : r ≤ m := (h.keyword_bound _ hfact r hkeyword).2
        rw [standings_upsert hfind]
        · exact h.mono le_rfl (Nat.le_succ m)
        · simp only [ScoredFact.standing, hkeyword, betterRank_of_le (hle.trans (Nat.le_succ m))]
    | none =>
        obtain ⟨r, hr⟩ := Option.ne_none_iff_exists'.mp fun hnone => h.found _ hfact hnone hkeyword
        generalize hfact' : ({ fact with
          keywordScore := max fact.keywordScore (rank / (1 + rank))
          keywordRank := some (betterRank none (m + 1))
          text := if fact.text = "" then rawText else fact.text } : ScoredFact) = fact'
        have hid : fact'.factId = factId := by
          rw [← hfact']
          exact (Ordered.find_eq_some hfind).2
        have hstanding : fact'.standing = (fact.standing.1, fact.standing.2.1, some (m + 1)) := by
          rw [← hfact']
          simp [ScoredFact.standing, betterRank]
        obtain ⟨before, after, rfl, hupsert⟩ := Ordered.upsert_of_find hfind hid
        rw [List.map_append, List.map_cons] at h
        rw [hupsert, List.map_append, List.map_cons, hstanding]
        exact h.replace hr

/-- The seeds are made of the rows of the vector search, then of those of the
full-text search. -/
theorem seed_eq_ok {engine : RetrievalEngine} {contextId question : String}
    {expanded : QueryRewriterOutput} {topK : Int} {seeds : List ScoredFact}
    (h : engine.seed contextId question expanded topK = .ok seeds) :
    ∃ vector rows accepted, engine.embed question = .ok vector ∧
      engine.semanticRows vector contextId (max (topK * engine.config.overfetchMultiplier)
        engine.config.overfetchFloor) = .ok rows ∧
      seeds = (enumerate accepted).foldl seedKeyword ((enumerate rows).foldl seedSemantic []) := by
  unfold RetrievalEngine.seed at h
  obtain ⟨vector, hvector, h⟩ := Fallible.bind_eq_ok h
  obtain ⟨rows, hrows, h⟩ := Fallible.bind_eq_ok h
  dsimp only at h
  split at h
  · cases h
    exact ⟨vector, rows, [], hvector, hrows, rfl⟩
  · obtain ⟨found, -, h⟩ := Fallible.bind_eq_ok h
    cases h
    exact ⟨vector, rows, _, hvector, hrows, rfl⟩

/-- **Seeding.** The seeds stand in the order of seeding. -/
theorem seed_seeded {engine : RetrievalEngine} {contextId question : String}
    {expanded : QueryRewriterOutput} {topK : Int} {seeds : List ScoredFact}
    (h : engine.seed contextId question expanded topK = .ok seeds) :
    ∃ n m, SeededTo n m (seeds.map ScoredFact.standing) := by
  obtain ⟨vector, rows, accepted, -, -, rfl⟩ := seed_eq_ok h
  have hempty : SeededTo 0 0 (([] : List ScoredFact).map ScoredFact.standing) := by
    refine ⟨List.Pairwise.nil, ?_, ?_, ?_⟩ <;> simp
  have hsemantic : SeededTo rows.length 0
      (((enumerate rows).foldl seedSemantic []).map ScoredFact.standing) :=
    foldl_enumerate (P := fun n (facts : List ScoredFact) =>
      SeededTo n 0 (facts.map ScoredFact.standing)) (fun _ row _ hfacts => hfacts.semantic row) rows
      hempty
  exact ⟨_, _, foldl_enumerate (P := fun m (facts : List ScoredFact) =>
    SeededTo rows.length m (facts.map ScoredFact.standing))
    (fun _ row _ hfacts => hfacts.keyword row) accepted hsemantic⟩

end Seeding

/-! ### Dominance -/

/-- A rank at least as good; an absent one counts as infinite. -/
def RankLe (a b : Option Nat) : Prop := ∀ r', b = some r' → ∃ r, a = some r ∧ r ≤ r'

/-- At least as good in every channel. -/
structure Dominates (a b : ScoredFact) : Prop where
  semantic : RankLe a.semanticRank b.semanticRank
  keyword : RankLe a.keywordRank b.keywordRank
  structural : b.structuralScore ≤ a.structuralScore
  entity : b.entityBoost ≤ a.entityBoost

section Weights

variable {config : RetrievalConfig} {a b : Option Nat}

theorem rrfWeight_nonneg (hk : 0 ≤ config.rrfK) (a : Option Nat) : 0 ≤ rrfWeight config a := by
  cases a with
  | none => exact le_rfl
  | some r =>
      have hsum : (0 : Rat) ≤ (config.rrfK + (r : Int) : Int) := by
        exact_mod_cast Int.add_nonneg hk (Int.natCast_nonneg r)
      exact div_nonneg zero_le_one hsum

/-- A better rank weighs more. -/
theorem rrfWeight_lt (hk : 0 ≤ config.rrfK) {r : Nat} (ha : a = some r) (hpos : 0 < r)
    (h : ∀ r', b = some r' → r < r') : rrfWeight config b < rrfWeight config a := by
  subst ha
  have hsum : (0 : Rat) < (config.rrfK + (r : Int) : Int) := by
    have hint : 0 < config.rrfK + (r : Int) := by omega
    exact_mod_cast hint
  cases b with
  | none => exact one_div_pos.mpr hsum
  | some r' =>
      refine one_div_lt_one_div_of_lt hsum ?_
      have hint : config.rrfK + (r : Int) < config.rrfK + (r' : Int) := by
        have hlt := h r' rfl
        omega
      exact_mod_cast hint

theorem rrfWeight_le (hk : 0 ≤ config.rrfK) (hpos : ∀ r, a = some r → 0 < r) (h : RankLe a b) :
    rrfWeight config b ≤ rrfWeight config a := by
  cases b with
  | none => exact rrfWeight_nonneg hk a
  | some r' =>
      obtain ⟨r, rfl, hle⟩ := h r' rfl
      rcases Nat.lt_or_eq_of_le hle with hlt | rfl
      · refine (rrfWeight_lt hk rfl (hpos r rfl) fun r'' hr'' => ?_).le
        cases hr''
        exact hlt
      · exact le_rfl

theorem channelPlace_pos {score : ScoredFact → Rat} {facts : List ScoredFact} {fact : ScoredFact}
    {r : Nat} (h : channelPlace score facts fact = some r) : 0 < r := by
  unfold channelPlace at h
  split at h
  · cases h
    exact Nat.succ_pos _
  · cases h

/-- Among facts with the same or a better score, the earlier one has the better
place. -/
theorem channelPlace_le {score : ScoredFact → Rat} {facts : List ScoredFact} (hnd : facts.Nodup)
    {a b : ScoredFact} (h : [a, b].Sublist facts) (hne : a ≠ b) (hscore : score b ≤ score a) :
    RankLe (channelPlace score facts a) (channelPlace score facts b) := by
  intro r' hr'
  unfold channelPlace at hr' ⊢
  split at hr'
  · rename_i hb
    cases hr'
    rw [if_pos (hb.trans_le hscore)]
    refine ⟨_, rfl, Nat.succ_le_succ (Nat.le_of_lt ?_)⟩
    have hmem : a ∈ facts ∧ b ∈ facts := ⟨h.subset (by simp), h.subset (by simp)⟩
    refine Ranked.place_lt (byScore_trans score) (byScore_total score) hnd hmem.1 hmem.2 hne ?_
    exact ⟨by simpa [byScore] using hscore, fun _ => h⟩
  · cases hr'

end Weights

section Dominance

variable {n m : Nat} {facts : List ScoredFact} (h : SeededTo n m (facts.map ScoredFact.standing))

include h

theorem SeededTo.ids_nodup : (facts.map ScoredFact.factId).Nodup := by
  have hids : (facts.map ScoredFact.standing).Pairwise fun a b => a.1 ≠ b.1 :=
    h.order.imp fun hab => hab.1
  rw [List.pairwise_map] at hids
  exact List.pairwise_map.mpr hids

theorem SeededTo.earlier {a b : ScoredFact} (hpair : [a, b].Sublist facts) :
    Earlier a.standing b.standing :=
  List.pairwise_iff_forall_sublist.mp h.order (hpair.map ScoredFact.standing)

/-- A fact whose ranks are at least as good stands first. -/
theorem SeededTo.pair_sublist {a b : ScoredFact} (ha : a ∈ facts) (hb : b ∈ facts) (hne : a ≠ b)
    (hsemantic : RankLe a.semanticRank b.semanticRank)
    (hkeyword : RankLe a.keywordRank b.keywordRank) : [a, b].Sublist facts := by
  rcases Ranked.pair_sublist_total ha hb hne with hpair | hpair
  · exact hpair
  · obtain ⟨-, -, ⟨r, hr, hlater⟩ | ⟨-, -, r, hr, hlater⟩⟩ := h.earlier hpair
    · obtain ⟨r', hr', hle⟩ := hsemantic r hr
      have hlt := hlater r' hr'
      omega
    · obtain ⟨r', hr', hle⟩ := hkeyword r hr
      have hlt := hlater r' hr'
      omega

theorem SeededTo.positive {a : ScoredFact} (ha : a ∈ facts) :
    (∀ r, a.semanticRank = some r → 0 < r) ∧ ∀ r, a.keywordRank = some r → 0 < r :=
  ⟨fun r hr => (h.semantic_bound _ (List.mem_map_of_mem ha) r hr).1,
    fun r hr => (h.keyword_bound _ (List.mem_map_of_mem ha) r hr).1⟩

/-- And it weighs more. -/
theorem SeededTo.weight_lt {config : RetrievalConfig} (hk : 0 ≤ config.rrfK) {a b : ScoredFact}
    (ha : a ∈ facts) (hb : b ∈ facts) (hne : a ≠ b) (hdom : Dominates a b) :
    weight config facts b < weight config facts a := by
  have hpair := h.pair_sublist ha hb hne hdom.semantic hdom.keyword
  have hnd := nodup_of_ids h.ids_nodup
  obtain ⟨hsemantic, hkeyword⟩ := h.positive ha
  have hstructural := rrfWeight_le hk (fun _ hr => channelPlace_pos hr)
    (channelPlace_le hnd hpair hne hdom.structural)
  have hentity := rrfWeight_le hk (fun _ hr => channelPlace_pos hr)
    (channelPlace_le hnd hpair hne hdom.entity)
  unfold weight
  -- strictly more in the search that found it first
  obtain ⟨-, -, ⟨r, hr, hlater⟩ | ⟨-, -, r, hr, hlater⟩⟩ := h.earlier hpair
  · have hfirst := rrfWeight_lt hk hr (hsemantic r hr) hlater
    have hsecond := rrfWeight_le hk hkeyword hdom.keyword
    change rrfWeight config b.semanticRank < rrfWeight config a.semanticRank at hfirst
    linarith
  · have hfirst := rrfWeight_lt hk hr (hkeyword r hr) hlater
    have hsecond := rrfWeight_le hk hsemantic hdom.semantic
    change rrfWeight config b.keywordRank < rrfWeight config a.keywordRank at hfirst
    linarith

end Dominance

theorem SeededTo.sublist {n m : Nat} {standings standings' : List Standing}
    (h : SeededTo n m standings) (hpart : standings'.Sublist standings) :
    SeededTo n m standings' where
  order := h.order.sublist hpart
  found a ha := h.found a (hpart.subset ha)
  semantic_bound a ha := h.semantic_bound a (hpart.subset ha)
  keyword_bound a ha := h.keyword_bound a (hpart.subset ha)

section Retained

variable {engine : RetrievalEngine} {contextId question : String}
  {expanded : QueryRewriterOutput} {topK : Int} {bounds : DateRange} {query : DateTime}
  {seeds facts : List ScoredFact} {data : List GraphDatum}

/-- Pruning, texts and scores leave the order of seeding as it is. -/
theorem scored_seeded (hseed : engine.seed contextId question expanded topK = .ok seeds)
    (hexpand : engine.expander.expand engine.config contextId seeds bounds query =
      .ok (facts, data)) :
    ∃ n m, SeededTo n m ((engine.scored question data expanded
      (engine.fillTexts contextId facts)).map ScoredFact.standing) := by
  obtain ⟨n, m, hseeded⟩ := seed_seeded hseed
  refine ⟨n, m, hseeded.sublist ?_⟩
  have hbare : ∀ facts : List ScoredFact,
      facts.map ScoredFact.standing = (facts.map ScoredFact.bare).map ScoredFact.standing := by
    intro facts
    rw [List.map_map]
    rfl
  have hscored : (engine.scored question data expanded (engine.fillTexts contextId facts)).map
      ScoredFact.standing = (engine.fillTexts contextId facts).map ScoredFact.standing := by
    rw [RetrievalEngine.scored, List.map_map]
    rfl
  rw [hscored, hbare, engine.bares_fillTexts, hbare seeds]
  exact (bares_expand hexpand).map _

/-- Ranks start at 1, so nothing is divided by zero. -/
theorem SeededTo.not_dividesByZero {n m : Nat} {config : RetrievalConfig}
    (h : SeededTo n m (facts.map ScoredFact.standing)) (hk : 0 ≤ config.rrfK)
    (hcap : 0 < config.structuralPathCap) : ¬DividesByZero config facts := by
  rintro ⟨fact, hfact, hzero | ⟨rank, hrank, hzero⟩⟩
  · omega
  · obtain ⟨hsemantic, hkeyword⟩ := h.positive hfact
    have hpos : 0 < rank := by
      simp only [ranksIn, List.mem_append, Option.mem_toList] at hrank
      rcases hrank with ((hrank | hrank) | hrank) | hrank
      · exact hsemantic rank hrank
      · exact hkeyword rank hrank
      · exact channelPlace_pos hrank
      · exact channelPlace_pos hrank
    omega

end Retained

/-- A graph that knows no time of any fact. -/
def timelessGraph : Graph where
  nodes _ := some ⟨{.fact}, fun _ => none⟩

/-- An engine over facts without times, with the rows of its two searches. -/
noncomputable def searchingEngine (semantic : List (String × Option Rat))
    (keyword : List (String × String × Option Rat)) : RetrievalEngine where
  config := {}
  casefold := asciiTables.casefold
  embed _ := .ok [1]
  temporalAnswer _ _ := .ok none
  rewriterAnswer _ := .ok none
  semanticRows _ _ _ := .ok semantic
  keywordRows _ _ _ := .ok keyword
  rawTexts _ _ := .ok []
  siblingRows _ _ _ := .ok []
  expander := timelessGraph.expander 256 numberingAllocator
  promptTemplate := id
  reader _ _ := .ok "Boston"

/-- The endpoint of a graph refuses the path query. -/
theorem pathStats_expander (g : Graph) (pageSize : Nat) (allocator : GraphIdAllocator)
    (config : RetrievalConfig) (raw kept : List RawNode) :
    (g.expander pageSize allocator).pathStats config raw kept = fun _ => none := by
  have hread : ∀ entities, (g.expander pageSize allocator).hydra.read
      (pathCypher entities config.graphMaxHops) (.obj []) none =
        .error (.runtimeError "HydraDB returned HTTP 400") := by
    intro entities
    have hother : ¬∃ id, nodeCypher id = pathCypher entities config.graphMaxHops :=
      fun ⟨id, h⟩ => nodeCypher_ne_pathCypher id _ _ h
    refine HydraHttpTransport.read_refused ?_
    simp only [Graph.endpoint, dif_neg hother]
  unfold Expander.pathStats
  split
  · rfl
  · rw [hread]

/-- Without times every seed is retained, and no path is counted. -/
theorem expand_timeless (config : RetrievalConfig) (contextId : String) (seeds : List ScoredFact)
    (bounds : DateRange) (query : DateTime) : ∃ facts data,
      (timelessGraph.expander 256 numberingAllocator).expand config contextId seeds bounds query =
        .ok (facts, data) ∧ facts.map ScoredFact.bare = seeds.map ScoredFact.bare ∧
      ∀ fact ∈ facts, (datumOf data fact).pathCount = 0 := by
  have hcomplete := timelessGraph.expander_complete (by decide : 0 < 256) numberingAllocator
  have hvisible : ∀ v, some (⟨{.fact}, fun _ => none⟩ : Vertex) = some v →
      visible query.timestamp (chatTtlLimit config query) (v.nodeRow none) = .ok true := by
    intro v hv
    cases hv
    rfl
  obtain ⟨facts, data, hexpand⟩ : ∃ facts data, (timelessGraph.expander 256
      numberingAllocator).expand config contextId seeds bounds query = .ok (facts, data) :=
    hcomplete.toSound.expand_ok fun fact _ v hv => ⟨true, hvisible v hv⟩
  have hids : ∀ factId ∈ seeds.map ScoredFact.factId, factId ∈ facts.map ScoredFact.factId :=
    fun factId hfact => (hcomplete.retained_iff hexpand hfact rfl).mpr (hvisible _ rfl)
  refine ⟨facts, data, hexpand, ?_⟩
  rcases Expander.expand_eq_ok hexpand with ⟨rfl, rfl⟩ | ⟨kept, -, rfl, hdata⟩
  · exact ⟨rfl, fun fact hfact => by cases hfact⟩
  refine ⟨?_, fun fact hfact => ?_⟩
  · rw [← bares_refresh kept seeds, Expander.prune, List.filter_eq_self.mpr]
    intro fact hfact
    have hsame : fact.factId ∈ seeds.map ScoredFact.factId := by
      rw [← factIds_of_origins (origins_refresh kept seeds)]
      exact List.mem_map_of_mem hfact
    obtain ⟨-, node, hnode, hkey⟩ := mem_prune.mp (hids _ hsame)
    simp only [decide_eq_true_eq]
    exact List.mem_map.mpr ⟨node, hnode, hkey⟩
  · have hzero : ∀ datum ∈ data, datum.pathCount = 0 := by
      intro datum hdatum
      rw [hdata (List.ne_nil_of_mem hfact), pathStats_expander] at hdatum
      obtain ⟨other, -, rfl⟩ := List.mem_map.mp hdatum
      rfl
    unfold datumOf
    cases hfind : Ordered.find GraphDatum.factId fact.factId data with
    | none => rfl
    | some datum => exact hzero datum (Ordered.find_eq_some hfind).1

/-- **Dominance.** Whatever was seeded and retained, the retained facts are
ranked, each of them once, and a fact that is at least as good as another in
every channel comes before it; so the other one is not among the first `top_k`
without it. Facts that tie in the derived channels keep the order of their
seeds, and there one of the two seeding channels is strict. -/
theorem ranking_respects_dominance (engine : RetrievalEngine) (contextId question : String)
    (expanded : QueryRewriterOutput) (topK : Int) (bounds : DateRange) (query : DateTime)
    (hrrf : 0 ≤ engine.config.rrfK) (hcap : 0 < engine.config.structuralPathCap)
    {seeds facts : List ScoredFact} {data : List GraphDatum}
    (hseed : engine.seed contextId question expanded topK = .ok seeds)
    (hexpand : engine.expander.expand engine.config contextId seeds bounds query =
      .ok (facts, data)) :
    ∃ ranked, engine.rank question (engine.fillTexts contextId facts) data expanded = .ok ranked ∧
      (ranked.map ScoredFact.factId).Perm (facts.map ScoredFact.factId) ∧
      ∀ a ∈ ranked, ∀ b ∈ ranked, a.factId ≠ b.factId → Dominates a b →
        [a, b].Sublist ranked ∧ (b ∈ pyTake topK ranked → a ∈ pyTake topK ranked) := by
  obtain ⟨n, m, hseeded⟩ := scored_seeded hseed hexpand
  have hids : ((engine.fillTexts contextId facts).map ScoredFact.factId).Nodup := by
    rw [← engine.ids_scored question data expanded]
    exact hseeded.ids_nodup
  have hrank := RetrievalEngine.rank_eq hids (hseeded.not_dividesByZero hrrf hcap)
  have hperm := RetrievalEngine.perm_ids_rank hrank
  generalize engine.scored question data expanded (engine.fillTexts contextId facts) = scored
    at hseeded hrank hperm
  have hnd := nodup_of_ids hseeded.ids_nodup
  generalize hranked : (scored.mergeSort (byScore (weight engine.config scored))).map
    (ScoredFact.withWeight engine.config scored) = ranked at hrank hperm
  have hnd' : ranked.Nodup := by
    refine nodup_of_ids ?_
    rw [← hranked, List.map_map]
    exact ((List.mergeSort_perm scored _).map ScoredFact.factId).nodup_iff.mpr hseeded.ids_nodup
  refine ⟨ranked, hrank, hperm, fun a ha b hb hne hdom => ?_⟩
  have hpair : [a, b].Sublist ranked := by
    rw [← hranked] at ha hb ⊢
    obtain ⟨a, hmem_a, rfl⟩ := List.mem_map.mp ha
    obtain ⟨b, hmem_b, rfl⟩ := List.mem_map.mp hb
    rw [List.mem_mergeSort] at hmem_a hmem_b
    have hne' : a ≠ b := fun heq => hne (heq ▸ rfl)
    have hlt := hseeded.weight_lt hrrf hmem_a hmem_b hne' ⟨hdom.semantic, hdom.keyword, hdom.structural,
      hdom.entity⟩
    have hfirst := (Ranked.pair_sublist_mergeSort_iff (byScore_trans _) (byScore_total _) hnd hmem_a
      hmem_b hne').mpr ⟨by simpa [byScore] using hlt.le, fun hback => by
        simp only [byScore, decide_eq_true_eq] at hback
        exact absurd hlt (not_lt.mpr hback)⟩
    exact hfirst.map (ScoredFact.withWeight engine.config scored)
  refine ⟨hpair, fun htop => ?_⟩
  unfold pyTake at htop ⊢
  split at htop
  · rename_i hstop
    rw [if_pos hstop]
    exact Ranked.mem_take_of_pair hnd' hpair htop
  · rename_i hstop
    rw [if_neg hstop]
    exact Ranked.mem_take_of_pair hnd' hpair htop

/-- The rows of the full-text search with a positive rank. -/
def acceptedRows (keyword : List (String × String × Option Rat)) : List (String × String × Rat) :=
  keyword.filterMap fun row =>
    if 0 < row.2.2.getD 0 then some (row.1, row.2.1, row.2.2.getD 0) else none

theorem searchingEngine_seed (semantic : List (String × Option Rat))
    (keyword : List (String × String × Option Rat)) (contextId : String) {question : String}
    {expanded : QueryRewriterOutput} (hquery : searchQuery question expanded ≠ "") (topK : Int) :
    (searchingEngine semantic keyword).seed contextId question expanded topK =
      .ok ((enumerate (acceptedRows keyword)).foldl seedKeyword
        ((enumerate semantic).foldl seedSemantic [])) := by
  unfold RetrievalEngine.seed searchingEngine
  simp only [Fallible.ok_bind, if_neg hquery]
  rfl

/-- Two cities that the vector search found, and two that the full-text search did. -/
def citiesByVector : List (String × Option Rat) := [("boston", some 0), ("seattle", some (1 / 2))]

def citiesByText : List (String × String × Option Rat) :=
  [("seattle", "Max moved to Seattle.", some (1 / 2)), ("austin", "Max worked in Austin.", some (1 / 5))]

def foundCities : List ScoredFact :=
  (enumerate (acceptedRows citiesByText)).foldl seedKeyword
    ((enumerate citiesByVector).foldl seedSemantic [])

/-- Three facts from both channels, of which the first is as good as the second
in each. The ranking has all three, and the dominated one does not come first. -/
theorem ranking_respects_dominance_cities : ∃ facts data ranked,
    (searchingEngine citiesByVector citiesByText).expander.expand {} "chat" foundCities {} ten =
      .ok (facts, data) ∧
    facts.map ScoredFact.factId = ["boston", "seattle", "austin"] ∧
    (searchingEngine citiesByVector citiesByText).rank "Where does Max live?"
        ((searchingEngine citiesByVector citiesByText).fillTexts "chat" facts) data ⟨[], []⟩ =
      .ok ranked ∧
    (ranked.map ScoredFact.factId).Perm ["boston", "seattle", "austin"] ∧
    ∀ a ∈ ranked, ∀ b ∈ ranked, a.factId ≠ b.factId → Dominates a b →
      [a, b].Sublist ranked ∧ (b ∈ pyTake 20 ranked → a ∈ pyTake 20 ranked) := by
  obtain ⟨facts, data, hexpand, hbares, -⟩ := expand_timeless {} "chat" foundCities {} ten
  obtain ⟨ranked, hranked, hperm, hdom⟩ := ranking_respects_dominance
    (searchingEngine citiesByVector citiesByText) "chat" "Where does Max live?" ⟨[], []⟩ 20 {} ten
    (show (0 : Int) ≤ 60 by decide) (show (0 : Int) < 3 by decide)
    (searchingEngine_seed _ _ _ (by decide) _) hexpand
  have hids : facts.map ScoredFact.factId = ["boston", "seattle", "austin"] := by
    have hbare := congrArg (List.map ScoredFact.factId) hbares
    rw [List.map_map, List.map_map] at hbare
    exact hbare.trans (by decide +kernel)
  rw [hids] at hperm
  exact ⟨facts, data, ranked, hexpand, hids, hranked, hperm, hdom⟩

end ContextMemory
