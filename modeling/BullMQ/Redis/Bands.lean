import Mathlib.Data.Int.Order.Basic
import BullMQ.Redis.Order

/-!
# Bands of scores

A sorted set whose scores pack a band and a rank: the scores of a band are an interval of width `w`,
and a new member of the band gets the score after the largest one of the band, or the first one
(`nextInBand`); where the band is used up, it gets the last score again. `Banded` relates such a set
to the log of its insertions: every score is in the band the member was last inserted into, and
where a band has had at most `w` insertions its members are listed in the order of their last
insertions.
-/

namespace Redis

variable {α : Type} [LinearOrder α]

namespace SortedSet

/-- The score of a new member of a band. -/
def nextInBand (w band : ℤ) (z : SortedSet ℤ α) : ℤ :=
  match (z.entriesByScore (band * w) ((band + 1) * w - 1)).getLast? with
  | some e => if (band + 1) * w - 1 ≤ (ofLex e).1 then (band + 1) * w - 1 else (ofLex e).1 + 1
  | none => band * w

theorem zscore_zremAll (l : List α) (a : α) (z : SortedSet ℤ α) :
    (z.zremAll l).zscore a = if a ∈ l then none else z.zscore a := by
  refine Option.ext fun k => ?_
  rw [zscore_eq_some, zremAll, filter]
  simp only [List.mem_filter, decide_eq_true_eq]
  split
  · next h => simp [h]
  · next h => simp [h, zscore_eq_some]

end SortedSet

/-- A score is in a band exactly if it is in the band's interval. -/
theorem ediv_eq_iff_mem {w : ℤ} (hw : 0 < w) {score band : ℤ} :
    score / w = band ↔ band * w ≤ score ∧ score ≤ (band + 1) * w - 1 := by
  rw [Int.ediv_eq_iff_of_pos hw, Int.add_mul, Int.one_mul]
  constructor
  · rintro ⟨hle, hlt⟩
    exact ⟨hle, by omega⟩
  · rintro ⟨hle, hlt⟩
    exact ⟨hle, by omega⟩

section Next

open SortedSet

variable {w : ℤ} {z : SortedSet ℤ α} {a : α} {score band : ℤ}

theorem mem_entriesByScore_band (hw : 0 < w) {e : ℤ ×ₗ α} :
    e ∈ z.entriesByScore (band * w) ((band + 1) * w - 1) ↔
      e ∈ z.entries ∧ (ofLex e).1 / w = band := by
  rw [entriesByScore, List.mem_filter, decide_eq_true_eq, ediv_eq_iff_mem hw]

/-- The last entry of a band has its largest score. -/
theorem le_last (hw : 0 < w) {e : ℤ ×ₗ α}
    (hlast : (z.entriesByScore (band * w) ((band + 1) * w - 1)).getLast? = some e)
    (ha : z.zscore a = some score) (hband : score / w = band) : score ≤ (ofLex e).1 := by
  have hmem : toLex (score, a) ∈ z.entriesByScore (band * w) ((band + 1) * w - 1) :=
    (mem_entriesByScore_band hw).mpr ⟨zscore_eq_some.mp ha, hband⟩
  have hsorted : (z.entriesByScore (band * w) ((band + 1) * w - 1)).Pairwise (· ≤ ·) :=
    z.sorted.filter _
  obtain ⟨init, hinit⟩ := List.getLast?_eq_some_iff.mp hlast
  rw [hinit] at hmem hsorted
  obtain hmem | hmem := List.mem_append.mp hmem
  · have hle := (List.pairwise_append.mp hsorted).2.2 _ hmem e (by simp)
    obtain hlt | ⟨heq, -⟩ := Prod.Lex.le_iff.mp hle
    · exact hlt.le
    · exact heq.le
  · rw [← List.mem_singleton.mp hmem]
    exact le_rfl

/-- What the score of a new member is: in the band, and after every other score of the band unless
the band is used up. -/
theorem nextInBand_spec (hw : 0 < w) (band : ℤ) (z : SortedSet ℤ α) :
    z.nextInBand w band / w = band ∧
      (z.nextInBand w band = band * w ∨
        ∃ a score, z.zscore a = some score ∧ score / w = band ∧ z.nextInBand w band ≤ score + 1) ∧
      ∀ a score, z.zscore a = some score → score / w = band → score % w < w - 1 →
        (∀ b score', z.zscore b = some score' → score' / w = band → score' % w < w - 1) →
        score < z.nextInBand w band := by
  unfold nextInBand
  cases hlast : (z.entriesByScore (band * w) ((band + 1) * w - 1)).getLast? with
  | none =>
    have hnone : ∀ a score, z.zscore a = some score → score / w ≠ band := by
      intro a score ha hband
      have hmem : toLex (score, a) ∈ z.entriesByScore (band * w) ((band + 1) * w - 1) :=
        (mem_entriesByScore_band hw).mpr ⟨zscore_eq_some.mp ha, hband⟩
      rw [List.getLast?_eq_none_iff.mp hlast] at hmem
      cases hmem
    refine ⟨Int.mul_ediv_cancel _ hw.ne', .inl rfl, fun a score ha hband => ?_⟩
    exact absurd hband (hnone a score ha)
  | some e =>
    obtain ⟨hentry, hband⟩ := (mem_entriesByScore_band hw).mp (List.mem_of_getLast? hlast)
    have hscore : z.zscore (ofLex e).2 = some (ofLex e).1 := zscore_eq_some.mpr hentry
    obtain ⟨hlo, hhi⟩ := (ediv_eq_iff_mem hw).mp hband
    dsimp only
    -- The last score of a band that is used up is shared.
    split
    · next hfull =>
      refine ⟨(ediv_eq_iff_mem hw).mpr ⟨hlo.trans (hhi.trans le_rfl), le_rfl⟩,
        .inr ⟨_, _, hscore, hband, by omega⟩, fun a score _ _ _ hroom => ?_⟩
      have hlt := hroom _ _ hscore hband
      have hdecomp := Int.mul_ediv_add_emod (ofLex e).1 w
      rw [hband, Int.mul_comm] at hdecomp
      rw [Int.add_mul, Int.one_mul] at hfull
      omega
    · next hroom =>
      refine ⟨(ediv_eq_iff_mem hw).mpr ⟨by omega, by omega⟩, .inr ⟨_, _, hscore, hband, le_rfl⟩,
        fun a score ha hband' _ _ => ?_⟩
      have hle := le_last hw hlast ha hband'
      omega

end Next

/-! ### Logs of insertions -/

/-- The band that a member was last inserted into. -/
def lastBand (log : List (α × ℤ)) (a : α) : Option ℤ :=
  (log.reverse.find? fun e => decide (e.1 = a)).map Prod.snd

/-- The number of insertions into a band. -/
def insertionsIn (log : List (α × ℤ)) (band : ℤ) : ℕ := log.countP fun e => decide (e.2 = band)

/-- Two members, the first of which was last inserted before the second one was. -/
def InsertedBefore (log : List (α × ℤ)) (a b : α) : Prop :=
  a ≠ b ∧ ∃ before band after, log = before ++ (b, band) :: after ∧ (∃ e ∈ before, e.1 = a) ∧
    ∀ e ∈ after, e.1 ≠ a ∧ e.1 ≠ b

section Log

variable {log : List (α × ℤ)} {a b c : α} {band : ℤ}

theorem lastBand_concat (log : List (α × ℤ)) (c : α) (band : ℤ) (a : α) :
    lastBand (log ++ [(c, band)]) a = if a = c then some band else lastBand log a := by
  rw [lastBand, List.reverse_append, List.reverse_singleton, List.singleton_append, List.find?_cons]
  by_cases h : a = c
  · simp [h]
  · simp [h, Ne.symm h, lastBand]

omit [LinearOrder α] in
theorem insertionsIn_concat (log : List (α × ℤ)) (c : α) (band band' : ℤ) :
    insertionsIn (log ++ [(c, band)]) band' =
      insertionsIn log band' + if band = band' then 1 else 0 := by
  simp [insertionsIn, List.countP_append, List.countP_cons]

omit [LinearOrder α] in
/-- The last insertion is after all others. -/
theorem insertedBefore_concat (h : InsertedBefore (log ++ [(c, band)]) a b) :
    (b = c ∧ a ≠ c) ∨ (a ≠ c ∧ b ≠ c ∧ InsertedBefore log a b) := by
  obtain ⟨hne, before, band', after, hlog, hmem, hafter⟩ := h
  obtain rfl | ⟨after, e, rfl⟩ := List.eq_nil_or_concat after
  · obtain ⟨-, hlast⟩ := List.append_inj' hlog rfl
    obtain ⟨rfl, -⟩ : c = b ∧ band = band' := by simpa using hlast
    exact .inl ⟨rfl, hne⟩
  · rw [List.concat_eq_append, ← List.cons_append, ← List.append_assoc] at hlog
    obtain ⟨hinit, hlast⟩ := List.append_inj' hlog rfl
    obtain rfl : (c, band) = e := by simpa using hlast
    have hc := hafter (c, band) (by simp)
    exact .inr ⟨hc.1.symm, hc.2.symm, hne, before, band', after, hinit, hmem,
      fun e he => hafter e (by simp [he])⟩

end Log

/-! ### Sets and their logs -/

/-- A sorted set with bands of width `w`, and the log of its insertions. -/
structure Banded (w : ℤ) (z : SortedSet ℤ α) (log : List (α × ℤ)) : Prop where
  /-- A score is in the band of the last insertion. -/
  band : ∀ a score, z.zscore a = some score → lastBand log a = some (score / w)
  /-- Ranks count insertions. -/
  rank : ∀ a score, z.zscore a = some score → (insertionsIn log (score / w) : ℤ) ≤ w →
    score % w < insertionsIn log (score / w)
  /-- Scores are in the order of the insertions. -/
  order : ∀ a b score score', z.zscore a = some score → z.zscore b = some score' →
    score / w = score' / w → (insertionsIn log (score / w) : ℤ) ≤ w → InsertedBefore log a b →
    score < score'

namespace Banded

open SortedSet

variable {w : ℤ} {z : SortedSet ℤ α} {log : List (α × ℤ)}

theorem empty (w : ℤ) : Banded w (∅ : SortedSet ℤ α) [] where
  band := fun a score h => by cases h
  rank := fun a score h => by cases h
  order := fun a b score score' h => by cases h

/-- Members can be taken out. -/
theorem zremAll (h : Banded w z log) (l : List α) : Banded w (z.zremAll l) log := by
  have hscore : ∀ a score, (z.zremAll l).zscore a = some score → z.zscore a = some score := by
    intro a score ha
    rw [zscore_zremAll] at ha
    split at ha
    · cases ha
    · exact ha
  exact ⟨fun a score ha => h.band a score (hscore a score ha),
    fun a score ha => h.rank a score (hscore a score ha),
    fun a b score score' ha hb => h.order a b score score' (hscore a score ha) (hscore b score' hb)⟩

/-- A member can be inserted, or inserted again. -/
theorem insert (h : Banded w z log) (hw : 0 < w) (c : α) (t : ℤ) :
    Banded w (z.zadd (z.nextInBand w t) c) (log ++ [(c, t)]) := by
  obtain ⟨hband, hnext, hlast⟩ := nextInBand_spec hw t z
  have hcount : ∀ t', insertionsIn log t' ≤ insertionsIn (log ++ [(c, t)]) t' := by
    intro t'
    rw [insertionsIn_concat]
    omega
  have hcount' : insertionsIn (log ++ [(c, t)]) t = insertionsIn log t + 1 := by
    rw [insertionsIn_concat, if_pos rfl]
  -- The band of each score, the rank of a score among the insertions of its band, and the order.
  refine ⟨fun a score ha => ?_, fun a score ha hfew => ?_,
    fun a b score score' ha hb hsame hfew hbefore => ?_⟩
  · rw [zscore_zadd] at ha
    rw [lastBand_concat]
    split at ha
    · next heq =>
      obtain rfl := Option.some.inj ha
      rw [if_pos heq, hband]
    · next hne =>
      rw [if_neg hne]
      exact h.band a score ha
  · rw [zscore_zadd] at ha
    split at ha
    · obtain rfl := Option.some.inj ha
      rw [hband] at hfew ⊢
      rw [hcount'] at hfew ⊢
      have hdecomp := Int.mul_ediv_add_emod (z.nextInBand w t) w
      rw [hband, Int.mul_comm] at hdecomp
      obtain heq | ⟨b, score', hb, hb', hle⟩ := hnext
      · push_cast
        omega
      · have hrank := h.rank b score' hb (by rw [hb']; push_cast at hfew; omega)
        have hdecomp' := Int.mul_ediv_add_emod score' w
        rw [hb', Int.mul_comm] at hdecomp'
        rw [hb'] at hrank
        push_cast
        omega
    · have hmono := hcount (score / w)
      have hrank := h.rank a score ha (by omega)
      omega
  · rw [zscore_zadd] at ha hb
    have hmono := hcount (score / w)
    obtain ⟨rfl, hne⟩ | ⟨hne, hne', hbefore⟩ := insertedBefore_concat hbefore
    · rw [if_neg hne] at ha
      rw [if_pos rfl] at hb
      obtain rfl := Option.some.inj hb
      rw [hband] at hsame
      rw [hsame, hcount'] at hfew
      -- With fewer insertions than the band is wide, none of its scores is the last one yet.
      have hroom : ∀ b score', z.zscore b = some score' → score' / w = t → score' % w < w - 1 := by
        intro b score' hb hb'
        have hrank := h.rank b score' hb (by rw [hb']; push_cast at hfew; omega)
        rw [hb'] at hrank
        push_cast at hfew
        omega
      exact hlast a score ha hsame (hroom a score ha hsame) hroom
    · rw [if_neg hne] at ha
      rw [if_neg hne'] at hb
      exact h.order a b score score' ha hb hsame (by omega) hbefore

/-! ### Reading the first members -/

/-- The members of the bands up to `t`, ascending. -/
theorem mem_rangeByScore (hw : 0 < w) {t : ℤ} {a : α} :
    a ∈ z.rangeByScore 0 ((t + 1) * w - 1) ↔
      ∃ score, z.zscore a = some score ∧ 0 ≤ score / w ∧ score / w ≤ t := by
  have hband : ∀ score : ℤ, (0 ≤ score ∧ score ≤ (t + 1) * w - 1) ↔
      0 ≤ score / w ∧ score / w ≤ t := by
    intro score
    rw [Int.ediv_nonneg_iff_of_pos hw, ← Int.lt_add_one_iff (b := t), Int.ediv_lt_iff_lt_mul hw]
    exact and_congr_right fun _ => ⟨fun h => by omega, fun h => by omega⟩
  simp only [rangeByScore, entriesByScore, List.mem_map, List.mem_filter, decide_eq_true_eq, hband]
  constructor
  · rintro ⟨e, ⟨he, hmem⟩, rfl⟩
    exact ⟨_, zscore_eq_some.mpr he, hmem⟩
  · rintro ⟨score, hscore, hmem⟩
    exact ⟨_, ⟨zscore_eq_some.mp hscore, hmem⟩, rfl⟩

/-- A range lists its members by band. -/
theorem pairwise_lastBand (h : Banded w z log) (hw : 0 < w) (lo hi : ℤ) :
    (z.rangeByScore lo hi).Pairwise fun a b =>
      ∀ t t', lastBand log a = some t → lastBand log b = some t' → t ≤ t' := by
  have hsorted : (z.entriesByScore lo hi).Pairwise (· ≤ ·) := z.sorted.filter _
  refine List.pairwise_map.mpr (hsorted.imp_of_mem fun {e e'} he he' hle t t' ht ht' => ?_)
  have hscore : ∀ f ∈ z.entriesByScore lo hi, z.zscore (ofLex f).2 = some (ofLex f).1 := fun f hf =>
    zscore_eq_some.mpr (List.mem_filter.mp hf).1
  obtain rfl : (ofLex e).1 / w = t := by
    simpa [h.band _ _ (hscore e he)] using ht
  obtain rfl : (ofLex e').1 / w = t' := by
    simpa [h.band _ _ (hscore e' he')] using ht'
  refine Int.ediv_le_ediv hw ?_
  obtain hlt | ⟨heq, -⟩ := Prod.Lex.le_iff.mp hle
  · exact hlt.le
  · exact heq.le

/-- The members of a band with few insertions are listed in the order of these. -/
theorem before_rangeByScore (h : Banded w z log) (hw : 0 < w) {t band : ℤ} {a b : α}
    (ha : a ∈ z) (hb : b ∈ z.rangeByScore 0 ((t + 1) * w - 1)) (ha' : lastBand log a = some band)
    (hb' : lastBand log b = some band) (hfew : (insertionsIn log band : ℤ) ≤ w)
    (hbefore : InsertedBefore log a b) : Before (z.rangeByScore 0 ((t + 1) * w - 1)) a b := by
  obtain ⟨score, hscore⟩ := exists_zscore ha
  obtain ⟨score', hscore', hlo, hhi⟩ := (mem_rangeByScore hw).mp hb
  obtain rfl : score / w = band := by simpa [h.band _ _ hscore] using ha'
  have hsame : score' / w = score / w := by simpa [h.band _ _ hscore'] using hb'
  have hlt := h.order a b score score' hscore hscore' hsame.symm hfew hbefore
  have hmem : a ∈ z.rangeByScore 0 ((t + 1) * w - 1) :=
    (mem_rangeByScore hw).mpr ⟨score, hscore, hsame ▸ hlo, hsame ▸ hhi⟩
  have hentry : ∀ c score, z.zscore c = some score → c ∈ z.rangeByScore 0 ((t + 1) * w - 1) →
      toLex (score, c) ∈ z.entriesByScore 0 ((t + 1) * w - 1) := by
    intro c score hc hmem
    obtain ⟨e, he, rfl⟩ := List.mem_map.mp hmem
    have he' := zscore_eq_some.mpr (List.mem_filter.mp he).1
    obtain rfl : (ofLex e).1 = score := Option.some.inj (he'.symm.trans hc)
    exact he
  have hpairs : Before (z.entriesByScore 0 ((t + 1) * w - 1)) (toLex (score, a))
      (toLex (score', b)) :=
    (before_iff_of_pairwise (z.entries_pairwise_lt.filter _)).mpr
      ⟨hentry a score hscore hmem, hentry b score' hscore' hb, Prod.Lex.lt_iff.mpr (.inl hlt)⟩
  exact hpairs.map fun e => (ofLex e).2

end Banded

end Redis
