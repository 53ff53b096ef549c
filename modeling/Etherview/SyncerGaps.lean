import Etherview.StoreCoverage

/-! # Gaps in the coverage

    `missingBackfillRanges` of `internal/syncer/service.go`: the uncovered heights up to
    the authoritative head, cut into chunks for backfill leases.

    Two nested loops with early returns walk over the coverage.  Their arithmetic passes
    through an `Arithmetic`, which wraps as Go does or stops, and their rounds are
    bounded by a fuel.  `gaps_exact` says that neither is ever felt, and that the chunks
    are the lowest uncovered heights, all of them unless the limit was reached. -/

namespace Syncer

open Store IntervalSet List Option Fin

/-! ## Model -/

/-- `uint64` addition and subtraction. -/
structure Arithmetic where
  add : Uint64 → Uint64 → Option Uint64
  sub : Uint64 → Uint64 → Option Uint64

/-- Go: results wrap. -/
def Arithmetic.wrapping : Arithmetic where
  add := fun a b => some (a + b)
  sub := fun a b => some (a - b)

/-- Arithmetic that stops instead of wrapping. -/
def Arithmetic.checked : Arithmetic where
  add := fun a b => if a.val + b.val < 18446744073709551616 then some (a + b) else none
  sub := fun a b => if b ≤ a then some (a - b) else none

/-- The ranges of one answer. -/
def maximumBackfillCandidates : Int := 256

/-- `store.MaxBackfillRangeBlocks`. -/
def maxRangeBlocks : Uint64 := 256

section Model

variable (arithmetic : Arithmetic) (through batch : Uint64) (limit : Nat)

/-- The end of the next chunk of a gap. -/
def chunkEnd (start stop : Uint64) : Option Uint64 := do
  let distance ← arithmetic.sub stop start
  if batch ≤ distance then do
    let next ← arithmetic.add start batch
    arithmetic.sub next 1
  else some stop

/-- The closure `appendGap`: the chunks of a gap, and whether the caller has to stop. -/
def appendGap : Nat → Uint64 → Uint64 → List BlockRange → Option (List BlockRange × Bool)
  | 0, _, _, _ => none
  | fuel + 1, start, stop, result =>
    if start ≤ stop then do
      let last ← chunkEnd arithmetic batch start stop
      let result := result ++ [⟨start, last⟩]
      if result.length = limit ∨ last = maxUint64 then some (result, true)
      else do
        let next ← arithmetic.add last 1
        appendGap fuel next stop result
    else some (result, false)

/-- The gap above the last range. -/
def appendRest (cursor : Uint64) (result : List BlockRange) : Option (List BlockRange) := do
  if cursor ≤ through then do
    let (result, _) ← appendGap arithmetic batch limit (limit + 1) cursor through result
    some result
  else some result

/-- The gap below a range. -/
def appendBelow (covered : BlockRange) (cursor : Uint64) (result : List BlockRange) :
    Option (List BlockRange × Bool) :=
  if covered.start > cursor then do
    let before ← arithmetic.sub covered.start 1
    appendGap arithmetic batch limit (limit + 1) cursor (min before through) result
  else some (result, false)

/-- The loop over the ranges. -/
def coverageLoop : List BlockRange → Uint64 → List BlockRange → Option (List BlockRange)
  | [], cursor, result => appendRest arithmetic through batch limit cursor result
  | covered :: rest, cursor, result =>
    if covered.stop < cursor then coverageLoop rest cursor result
    else if covered.start > through then appendRest arithmetic through batch limit cursor result
    else do
      let (result, full) ← appendBelow arithmetic through batch limit covered cursor result
      if full = true then some result
      else if covered.stop ≥ through ∨ covered.stop = maxUint64 then some result
      else do
        let cursor ←
          if covered.stop ≥ cursor then arithmetic.add covered.stop 1 else some cursor
        coverageLoop rest cursor result

end Model

/-- The heights of one range: the configured batch, or the most that a lease can have. -/
def chunkBlocks (batch : Uint64) : Uint64 :=
  if batch = 0 ∨ batch > maxRangeBlocks then maxRangeBlocks else batch

/-- The number of ranges that are returned at most. -/
def effectiveLimit (limit : Int) : Nat := (min limit maximumBackfillCandidates).toNat

/-- The ranges between the start and a height that the coverage lacks, in chunks. -/
def missingBackfillRanges (arithmetic : Arithmetic) (configuredStart : Uint64)
    (ranges : List BlockRange) (through batch : Uint64) (limit : Int) : Option (List BlockRange) :=
  if through < configuredStart ∨ limit ≤ 0 then some []
  else coverageLoop arithmetic through (chunkBlocks batch) (effectiveLimit limit) ranges
    configuredStart []

/-! ## Arithmetic that is not felt -/

/-- The arithmetic computes whatever does not wrap. -/
structure Arithmetic.Lenient (arithmetic : Arithmetic) : Prop where
  add : ∀ {a b : Uint64}, a.val + b.val < 18446744073709551616 →
    arithmetic.add a b = some (a + b)
  sub : ∀ {a b : Uint64}, b ≤ a → arithmetic.sub a b = some (a - b)

theorem Arithmetic.wrapping_lenient : Arithmetic.wrapping.Lenient :=
  ⟨fun _ => rfl, fun _ => rfl⟩

theorem Arithmetic.checked_lenient : Arithmetic.checked.Lenient :=
  ⟨fun h => if_pos h, fun h => if_pos h⟩

/-- A computation has the same result under every lenient arithmetic. -/
def Computes {α : Type} (f : Arithmetic → Option α) (a : α) : Prop :=
  ∀ arithmetic : Arithmetic, arithmetic.Lenient → f arithmetic = some a

/-! ## What has been emitted -/

/-- The chunks emitted so far, while the walk stands at a height: the uncovered heights
    below it. -/
structure Emitted (configuredStart : Uint64) (ranges : List BlockRange) (size bound : Nat)
    (result : List BlockRange) : Prop where
  sorted : result.Pairwise fun a b => a.stop < b.start
  chunks : ∀ r ∈ result, r.start ≤ r.stop ∧ r.stop.val - r.start.val + 1 ≤ size
  covers : ∀ n, Covers result n ↔ configuredStart ≤ n ∧ n.val < bound ∧ ¬ Covers ranges n

variable {configuredStart : Uint64} {ranges : List BlockRange} {size bound : Nat}
  {result : List BlockRange}

theorem Emitted.nil : Emitted configuredStart ranges size configuredStart.val [] := by
  refine ⟨Pairwise.nil, fun _ h => (nomatch h), fun n => ?_⟩
  constructor
  · intro h
    exact absurd h (covers_nil n)
  · rintro ⟨hle, hlt, -⟩
    exact absurd hlt (not_lt.mpr hle)

section

variable (h : Emitted configuredStart ranges size bound result)
include h

/-- Every chunk ends below the height of the walk. -/
theorem Emitted.stop_lt {r : BlockRange} (hr : r ∈ result) : r.stop.val < bound :=
  ((h.covers r.stop).mp ⟨r, hr, (h.chunks r hr).1, le_rfl⟩).2.1

/-- Nothing is owed for heights that are covered. -/
theorem Emitted.skip {next : Nat} (hle : bound ≤ next)
    (hcovered : ∀ n : Uint64, bound ≤ n.val → n.val < next → Covers ranges n) :
    Emitted configuredStart ranges size next result := by
  refine ⟨h.sorted, h.chunks, fun n => (h.covers n).trans ?_⟩
  constructor
  · rintro ⟨hstart, hlt, hnot⟩
    exact ⟨hstart, lt_of_lt_of_le hlt hle, hnot⟩
  · rintro ⟨hstart, hlt, hnot⟩
    refine ⟨hstart, ?_, hnot⟩
    by_contra hge
    exact hnot (hcovered n (Nat.le_of_not_lt hge) hlt)

end

variable {start stop : Uint64}

/-- A chunk of uncovered heights moves the walk behind its end. -/
theorem Emitted.snoc (h : Emitted configuredStart ranges size start.val result)
    (hstart : configuredStart ≤ start) (hproper : start ≤ stop)
    (hsize : stop.val - start.val + 1 ≤ size)
    (hfree : ∀ n, start ≤ n → n ≤ stop → ¬ Covers ranges n) :
    Emitted configuredStart ranges size (stop.val + 1) (result ++ [⟨start, stop⟩]) := by
  refine ⟨?_, ?_, ?_⟩
  · refine pairwise_append.mpr ⟨h.sorted, pairwise_singleton _ _, ?_⟩
    intro r hr last hlast
    obtain rfl := mem_singleton.mp hlast
    exact h.stop_lt hr
  · intro r hr
    rcases mem_append.mp hr with hr | hr
    · exact h.chunks r hr
    · obtain rfl := mem_singleton.mp hr
      exact ⟨hproper, hsize⟩
  · intro n
    have hlast : Covers [(⟨start, stop⟩ : BlockRange)] n ↔ start ≤ n ∧ n ≤ stop := by
      simp [Span.Has]
    rw [covers_append, h.covers n, hlast]
    constructor
    · rintro (⟨hlow, hlt, hnot⟩ | ⟨hlow, hhigh⟩)
      · exact ⟨hlow, Nat.lt_succ_of_lt (lt_of_lt_of_le hlt hproper), hnot⟩
      · exact ⟨le_trans hstart hlow, Nat.lt_succ_of_le hhigh, hfree n hlow hhigh⟩
    · rintro ⟨hlow, hlt, hnot⟩
      rcases lt_or_ge n.val start.val with hn | hn
      · exact .inl ⟨hlow, hn, hnot⟩
      · exact .inr ⟨hn, Nat.le_of_lt_succ hlt⟩

/-! ## The chunks of one gap -/

variable {batch : Uint64}

theorem chunkEnd_computes (hbatch : 0 < batch.val) (hle : start ≤ stop) :
    ∃ last : Uint64, start ≤ last ∧ last ≤ stop ∧
      last.val - start.val + 1 ≤ batch.val ∧
      Computes (fun arithmetic => chunkEnd arithmetic batch start stop) last := by
  have hdistance : (stop - start).val = stop.val - start.val := sub_val_of_le hle
  by_cases hfar : batch ≤ stop - start
  · have hfar' : batch.val ≤ stop.val - start.val := by
      rw [← hdistance]
      exact hfar
    have hsum : (start + batch).val = start.val + batch.val := by
      rw [val_add]
      exact Nat.mod_eq_of_lt (by omega)
    have hone : (1 : Uint64) ≤ start + batch := by
      show (1 : Uint64).val ≤ (start + batch).val
      rw [hsum]
      show 1 ≤ _
      omega
    refine ⟨start + batch - 1, ?_, ?_, ?_, ?_⟩
    · show start.val ≤ _
      omega
    · show _ ≤ stop.val
      omega
    · omega
    · intro arithmetic h
      simp only [chunkEnd, h.sub hle, bind_eq_bind, bind_some, if_pos hfar]
      rw [h.add (by omega), bind_some, h.sub hone]
  · have hfar' : stop.val - start.val < batch.val := by
      rw [← hdistance]
      exact not_le.mp hfar
    refine ⟨stop, hle, le_rfl, by omega, ?_⟩
    intro arithmetic h
    simp only [chunkEnd, h.sub hle, bind_eq_bind, bind_some, if_neg hfar]

/-- How the walk over a gap ends: behind the gap, or behind its last chunk when the
    limit is reached or no height is left. -/
inductive GapEnds (configuredStart : Uint64) (ranges : List BlockRange) (size limit : Nat)
    (stop : Uint64) : List BlockRange × Bool → Prop
  | passed {result : List BlockRange} (hroom : result.length < limit)
      (h : Emitted configuredStart ranges size (stop.val + 1) result) :
      GapEnds configuredStart ranges size limit stop (result, false)
  | stopped {result : List BlockRange} {last : BlockRange} (hle : last.stop ≤ stop)
      (hfull : (result ++ [last]).length = limit ∨
        (result ++ [last]).length < limit ∧ last.stop = maxUint64)
      (h : Emitted configuredStart ranges size (last.stop.val + 1) (result ++ [last])) :
      GapEnds configuredStart ranges size limit stop (result ++ [last], true)

/-- The loop of `appendGap`: one round emits one chunk, and the limit bounds the rounds. -/
theorem appendGap_ends {limit : Nat} (hbatch : 0 < batch.val)
    (fuel : Nat) (start stop : Uint64) (result : List BlockRange)
    (h : Emitted configuredStart ranges batch.val start.val result)
    (hstart : configuredStart ≤ start) (hbound : start.val ≤ stop.val + 1)
    (hfree : ∀ n, start ≤ n → n ≤ stop → ¬ Covers ranges n)
    (hroom : result.length < limit) (hfuel : limit < fuel + result.length) :
    ∃ out,
      Computes (fun arithmetic => appendGap arithmetic batch limit fuel start stop result) out ∧
      GapEnds configuredStart ranges batch.val limit stop out := by
  induction fuel generalizing start result with
  | zero => omega
  | succ fuel ih =>
    by_cases hle : start ≤ stop
    · obtain ⟨last, hproper, hlast, hsize, hcompute⟩ := chunkEnd_computes hbatch hle
      have hnext := h.snoc hstart hproper hsize fun n hlow hhigh =>
        hfree n hlow (le_trans hhigh hlast)
      have hlength : (result ++ [(⟨start, last⟩ : BlockRange)]).length
          = result.length + 1 := by simp
      by_cases hstop : (result ++ [(⟨start, last⟩ : BlockRange)]).length = limit
          ∨ last = maxUint64
      · refine ⟨(result ++ [⟨start, last⟩], true), ?_, .stopped hlast ?_ hnext⟩
        · intro arithmetic hlenient
          simp only [appendGap, if_pos hle, hcompute arithmetic hlenient,
            bind_eq_bind, bind_some, if_pos hstop]
        · rcases hstop with hfull | hmax
          · exact .inl hfull
          · rcases lt_or_ge (result ++ [(⟨start, last⟩ : BlockRange)]).length limit
              with hlt | hge
            · exact .inr ⟨hlt, hmax⟩
            · exact .inl (by omega)
      · -- there is room, and the next height does not wrap
        obtain ⟨hnotFull, hnotMax⟩ := not_or.mp hstop
        have hbelow : last.val < 18446744073709551615 :=
          lt_of_le_of_ne (le_maxUint64 last) fun heq => hnotMax (Fin.ext heq)
        have hone : last.val + (1 : Uint64).val < 18446744073709551616 := Nat.succ_lt_succ hbelow
        have hsucc : (last + 1).val = last.val + 1 := val_add_eq_of_add_lt hone
        have hproper' : start.val ≤ last.val := hproper
        have hlast' : last.val ≤ stop.val := hlast
        obtain ⟨out, hout, hends⟩ := ih (last + 1) (result ++ [⟨start, last⟩])
          (by rw [hsucc]; exact hnext)
          (le_trans hstart (show start.val ≤ (last + 1).val by omega))
          (by omega)
          (fun n hlow hhigh => hfree n (show start.val ≤ n.val by
              have : (last + 1).val ≤ n.val := hlow
              omega) hhigh)
          (by omega) (by omega)
        refine ⟨out, ?_, hends⟩
        intro arithmetic hlenient
        simp only [appendGap, if_pos hle, hcompute arithmetic hlenient,
          bind_eq_bind, bind_some, if_neg hstop, hlenient.add hone]
        exact hout arithmetic hlenient
    · -- the gap is used up
      refine ⟨(result, false), ?_, .passed hroom ?_⟩
      · intro arithmetic _
        simp only [appendGap, if_neg hle]
      · have hgt : stop.val < start.val := not_le.mp hle
        have heq : stop.val + 1 = start.val := by omega
        rw [heq]
        exact h

/-! ## The walk over the coverage -/

/-- The chunks are exact: all uncovered heights up to the bound, or the limit many lowest
    chunks of them. -/
structure GapsExact (configuredStart : Uint64) (ranges : List BlockRange) (through : Uint64)
    (size limit : Nat) (result : List BlockRange) : Prop where
  sorted : result.Pairwise fun a b => a.stop < b.start
  chunks : ∀ r ∈ result, r.start ≤ r.stop ∧ r.stop.val - r.start.val + 1 ≤ size ∧
    configuredStart ≤ r.start ∧ r.stop ≤ through ∧ ∀ n, r.Has n → ¬ Covers ranges n
  bounded : result.length ≤ limit
  all : result.length < limit →
    ∀ n, Covers result n ↔ configuredStart ≤ n ∧ n ≤ through ∧ ¬ Covers ranges n
  lowest : result.length = limit → ∀ last ∈ result.getLast?,
    ∀ n, Covers result n ↔ configuredStart ≤ n ∧ n ≤ last.stop ∧ ¬ Covers ranges n

variable {through : Uint64} {limit : Nat}

/-- The single chunks, once the walk has stopped inside the bound. -/
theorem Emitted.inside (h : Emitted configuredStart ranges size bound result)
    (hbound : bound ≤ through.val + 1) :
    ∀ r ∈ result, r.start ≤ r.stop ∧ r.stop.val - r.start.val + 1 ≤ size ∧
      configuredStart ≤ r.start ∧ r.stop ≤ through ∧ ∀ n, r.Has n →
        ¬ Covers ranges n := by
  intro r hr
  obtain ⟨hproper, hsize⟩ := h.chunks r hr
  refine ⟨hproper, hsize, ?_, ?_, ?_⟩
  · exact ((h.covers r.start).mp ⟨r, hr, le_rfl, hproper⟩).1
  · exact Nat.le_of_lt_succ (lt_of_lt_of_le (h.stop_lt hr) hbound)
  · intro n hn
    exact ((h.covers n).mp ⟨r, hr, hn⟩).2.2

/-- A walk that passed the bound with room left has emitted everything. -/
theorem Emitted.exact_of_room (h : Emitted configuredStart ranges size (through.val + 1) result)
    (hroom : result.length < limit) :
    GapsExact configuredStart ranges through size limit result := by
  refine ⟨h.sorted, h.inside le_rfl, hroom.le, fun _ n => ?_, fun hfull => ?_⟩
  · rw [h.covers n, Nat.lt_succ_iff]
    rfl
  · exact absurd hfull hroom.ne

/-- A walk that stopped behind its last chunk has emitted the lowest heights. -/
theorem GapEnds.exact
    (h : GapEnds configuredStart ranges size limit stop (result, true)) (hle : stop ≤ through) :
    GapsExact configuredStart ranges through size limit result := by
  cases h with
  | stopped hlast hfull h =>
    rename_i before last
    have hinside : last.stop ≤ through := le_trans hlast hle
    refine ⟨h.sorted, h.inside (Nat.succ_le_succ hinside), ?_, fun hroom n => ?_,
      fun _ final hfinal n => ?_⟩
    · rcases hfull with hfull | ⟨hlt, -⟩
      · exact hfull.le
      · exact hlt.le
    · -- only the greatest height stops a walk that has room left
      have hmax : last.stop = maxUint64 := by
        rcases hfull with hfull | ⟨-, hmax⟩
        · exact absurd hfull hroom.ne
        · exact hmax
      have hthrough : last.stop = through := le_antisymm hinside (hmax ▸ le_maxUint64 through)
      rw [h.covers n, Nat.lt_succ_iff, hthrough]
      rfl
    · have hsame : last = final := by simpa using hfinal
      rw [h.covers n, Nat.lt_succ_iff, hsame]
      rfl

/-- A gap that was passed, or a walk that is done. -/
theorem GapEnds.room (h : GapEnds configuredStart ranges size limit stop (result, false)) :
    result.length < limit ∧ Emitted configuredStart ranges size (stop.val + 1) result := by
  cases h with
  | passed hroom h => exact ⟨hroom, h⟩

theorem appendRest_exact (through : Uint64) {cursor : Uint64} (hbatch : 0 < batch.val)
    (h : Emitted configuredStart ranges batch.val cursor.val result)
    (hstart : configuredStart ≤ cursor) (hroom : result.length < limit)
    (hbound : cursor.val ≤ through.val + 1)
    (hfree : ∀ n, cursor ≤ n → n ≤ through → ¬ Covers ranges n) :
    ∃ out,
      Computes (fun arithmetic => appendRest arithmetic through batch limit cursor result) out ∧
      GapsExact configuredStart ranges through batch.val limit out := by
  by_cases hle : cursor ≤ through
  · obtain ⟨⟨out, full⟩, hout, hends⟩ :=
      appendGap_ends hbatch (limit + 1) cursor through result h hstart
      hbound hfree hroom (by omega)
    refine ⟨out, ?_, ?_⟩
    · intro arithmetic hlenient
      simp only [appendRest, if_pos hle, hout arithmetic hlenient, bind_eq_bind, bind_some]
    · cases full with
      | false => exact hends.room.2.exact_of_room hends.room.1
      | true => exact hends.exact le_rfl
  · refine ⟨result, ?_, ?_⟩
    · intro arithmetic _
      simp only [appendRest, if_neg hle]
    · have hgt : through.val < cursor.val := not_le.mp hle
      have heq : through.val + 1 = cursor.val := by omega
      exact Emitted.exact_of_room (heq ▸ h) hroom

/-- The gap below a range, which ends the walk or leads to the start of the range. -/
theorem appendBelow_ends (covered : BlockRange) {cursor : Uint64} (hbatch : 0 < batch.val)
    (h : Emitted configuredStart ranges batch.val cursor.val result)
    (hstart : configuredStart ≤ cursor) (hroom : result.length < limit)
    (hthrough : covered.start ≤ through)
    (hfree : ∀ n, cursor ≤ n → n < covered.start → ¬ Covers ranges n) :
    ∃ out full, Computes (fun arithmetic =>
        appendBelow arithmetic through batch limit covered cursor result) (out, full) ∧
      (full = true → GapsExact configuredStart ranges through batch.val limit out) ∧
      (full = false → out.length < limit ∧
        Emitted configuredStart ranges batch.val (max cursor.val covered.start.val) out) := by
  by_cases hgap : cursor < covered.start
  · have hgap' : cursor.val < covered.start.val := hgap
    have hone : (1 : Uint64) ≤ covered.start := by
      show 1 ≤ covered.start.val
      omega
    -- the source cuts the gap at the bound, which lies above it here
    have hbelow : covered.start - 1 ≤ through :=
      le_trans (show (covered.start - 1).val ≤ covered.start.val by omega) hthrough
    obtain ⟨⟨out, full⟩, hout, hends⟩ := appendGap_ends hbatch (limit + 1) cursor
      (covered.start - 1) result h hstart (by omega)
      (fun n hlow hhigh => hfree n hlow (show n.val < covered.start.val by
        have : n.val ≤ (covered.start - 1).val := hhigh
        omega)) hroom (by omega)
    refine ⟨out, full, ?_, ?_, ?_⟩
    · intro arithmetic hlenient
      simp only [appendBelow, if_pos hgap, hlenient.sub hone, bind_eq_bind,
        bind_some, min_eq_left hbelow]
      exact hout arithmetic hlenient
    · rintro rfl
      exact hends.exact hbelow
    · rintro rfl
      have hmax : max cursor.val covered.start.val = (covered.start - 1).val + 1 := by omega
      rw [hmax]
      exact hends.room
  · refine ⟨result, false, ?_, fun hfalse => (nomatch hfalse), fun _ => ⟨hroom, ?_⟩⟩
    · intro arithmetic _
      simp only [appendBelow, if_neg hgap]
    · have hmax : max cursor.val covered.start.val = cursor.val := max_eq_left (not_lt.mp hgap)
      rw [hmax]
      exact h

/-- The loop over the ranges stands at a cursor, which separates the ranges that were
    walked over from those that decide the heights above it. -/
structure Walk (configuredStart : Uint64) (ranges : List BlockRange) (through : Uint64)
    (size limit : Nat) (rest : List BlockRange) (cursor : Uint64) (result : List BlockRange) :
    Prop where
  normal : Normalized rest
  decides : ∀ n, cursor ≤ n → (Covers ranges n ↔ Covers rest n)
  emitted : Emitted configuredStart ranges size cursor.val result
  start : configuredStart ≤ cursor
  within : cursor ≤ through
  room : result.length < limit

section Walk

variable {covered : BlockRange} {rest below : List BlockRange} {cursor : Uint64}
  (h : Walk configuredStart ranges through size limit (covered :: rest) cursor result)
include h

/-- A range that ends below the cursor decides no height that is left. -/
theorem Walk.behind (hbehind : covered.stop < cursor) :
    Walk configuredStart ranges through size limit rest cursor result where
  normal := h.normal.tail
  decides n hlow := by
    rw [h.decides n hlow, covers_cons]
    refine or_iff_right fun hhas => ?_
    exact absurd (lt_of_lt_of_le hbehind hlow) (not_lt.mpr hhas.2)
  emitted := h.emitted
  start := h.start
  within := h.within
  room := h.room

/-- The range covers its heights from the cursor on. -/
theorem Walk.inside (n : Uint64) (hlow : max cursor.val covered.start.val ≤ n.val)
    (hhigh : n ≤ covered.stop) : Covers ranges n := by
  have hlow' := max_le_iff.mp hlow
  exact (h.decides n hlow'.1).mpr (covers_cons.mpr (.inl ⟨hlow'.2, hhigh⟩))

variable (hroom : below.length < limit)
  (hat : Emitted configuredStart ranges size (max cursor.val covered.start.val) below)
include hroom hat

/-- A range that reaches the bound ends the walk. -/
theorem Walk.exact_of_reaches (hthrough : covered.start ≤ through)
    (hend : through ≤ covered.stop) :
    GapsExact configuredStart ranges through size limit below := by
  have hmax : max cursor.val covered.start.val ≤ through.val + 1 :=
    Nat.le_succ_of_le (max_le h.within hthrough)
  refine (hat.skip hmax fun n hlow hlt => ?_).exact_of_room hroom
  exact h.inside n hlow (le_trans (Nat.le_of_lt_succ hlt) hend)

/-- The cursor moves behind a range that ends below the bound. -/
theorem Walk.next (hreach : cursor ≤ covered.stop) (hlt : covered.stop < through)
    (hsucc : (covered.stop + 1).val = covered.stop.val + 1) :
    Walk configuredStart ranges through size limit rest (covered.stop + 1) below := by
  have hmoved : cursor ≤ covered.stop + 1 := by
    show cursor.val ≤ (covered.stop + 1).val
    rw [hsucc]
    exact Nat.le_succ_of_le hreach
  refine ⟨h.normal.tail, fun n hlow => ?_, ?_, le_trans h.start hmoved, ?_, hroom⟩
  · rw [h.decides n (le_trans hmoved hlow), covers_cons]
    refine or_iff_right fun hhas => ?_
    have hover : (covered.stop + 1).val ≤ n.val := hlow
    have hunder : n.val ≤ covered.stop.val := hhas.2
    omega
  · have hproper : covered.start ≤ covered.stop := h.normal.proper covered mem_cons_self
    rw [hsucc]
    refine hat.skip (Nat.le_succ_of_le (max_le hreach hproper)) fun n hlow hn => ?_
    exact h.inside n hlow (Nat.le_of_lt_succ hn)
  · show (covered.stop + 1).val ≤ through.val
    rw [hsucc]
    exact hlt

end Walk

/-- **The loop over the ranges** is exact, from wherever it stands. -/
theorem coverageLoop_exact (hbatch : 0 < batch.val) {rest : List BlockRange} {cursor : Uint64}
    {result : List BlockRange}
    (h : Walk configuredStart ranges through batch.val limit rest cursor result) :
    ∃ out, Computes (fun arithmetic =>
        coverageLoop arithmetic through batch limit rest cursor result) out ∧
      GapsExact configuredStart ranges through batch.val limit out := by
  induction rest generalizing cursor result with
  | nil =>
    refine appendRest_exact through hbatch h.emitted h.start h.room (Nat.le_succ_of_le h.within) ?_
    intro n hlow _ hcovers
    exact covers_nil n ((h.decides n hlow).mp hcovers)
  | cons covered rest ih =>
    have hhead : ∀ n, cursor ≤ n → Covers ranges n → covered.start ≤ n :=
      fun n hlow hcovers => h.normal.head_le ((h.decides n hlow).mp hcovers)
    -- a range that lies behind the cursor is skipped
    by_cases hbehind : covered.stop < cursor
    · obtain ⟨out, hout, hexact⟩ := ih (h.behind hbehind)
      refine ⟨out, ?_, hexact⟩
      intro arithmetic hlenient
      simp only [coverageLoop, if_pos hbehind]
      exact hout arithmetic hlenient
    by_cases habove : through < covered.start
    · -- this range and all later ones lie above the bound
      obtain ⟨out, hout, hexact⟩ := appendRest_exact through hbatch h.emitted h.start h.room
        (Nat.le_succ_of_le h.within) (fun n hlow hhigh hcovers =>
          not_lt.mpr (le_trans (hhead n hlow hcovers) hhigh) habove)
      refine ⟨out, ?_, hexact⟩
      intro arithmetic hlenient
      simp only [coverageLoop, if_neg hbehind, if_pos habove]
      exact hout arithmetic hlenient
    -- the gap below the range is emitted, which may use up the limit
    obtain ⟨below, full, hbelow, hdone, hgo⟩ := appendBelow_ends covered hbatch h.emitted
      h.start h.room (not_lt.mp habove) (fun n hlow hlt hcovers =>
        not_lt.mpr (hhead n hlow hcovers) hlt)
    cases full with
    | true =>
      refine ⟨below, ?_, hdone rfl⟩
      intro arithmetic hlenient
      simp only [coverageLoop, if_neg hbehind, if_neg habove, hbelow arithmetic hlenient,
        bind_eq_bind, bind_some, if_true]
    | false =>
      obtain ⟨hroom, hat⟩ := hgo rfl
      by_cases hlast : through ≤ covered.stop ∨ covered.stop = maxUint64
      · -- the range reaches the bound, so no gap is left above it
        have hend : through ≤ covered.stop := by
          rcases hlast with hle | hmax
          · exact hle
          · exact hmax ▸ le_maxUint64 through
        refine ⟨below, ?_, h.exact_of_reaches hroom hat (not_lt.mp habove) hend⟩
        intro arithmetic hlenient
        simp only [coverageLoop, if_neg hbehind, if_neg habove, hbelow arithmetic hlenient,
          bind_eq_bind, bind_some, Bool.false_eq_true, if_false, if_pos hlast]
      · have hlt : covered.stop < through := not_le.mp fun hle => hlast (.inl hle)
        have hone : covered.stop.val + (1 : Uint64).val < 18446744073709551616 :=
          lt_of_le_of_lt (Nat.succ_le_of_lt hlt) through.isLt
        have hreach : cursor ≤ covered.stop := not_lt.mp hbehind
        obtain ⟨out, hout, hexact⟩ :=
          ih (h.next hroom hat hreach hlt (val_add_eq_of_add_lt hone))
        refine ⟨out, ?_, hexact⟩
        intro arithmetic hlenient
        simp only [coverageLoop, if_neg hbehind, if_neg habove, hbelow arithmetic hlenient,
          bind_eq_bind, bind_some, Bool.false_eq_true, if_false, if_neg hlast, ge_iff_le,
          if_pos hreach, hlenient.add hone]
        exact hout arithmetic hlenient

/-- The walk as it begins. -/
theorem Walk.initial (hnormal : Normalized ranges) (hle : configuredStart ≤ through)
    (hlimit : 0 < limit) :
    Walk configuredStart ranges through size limit ranges configuredStart [] :=
  ⟨hnormal, fun _ _ => Iff.rfl, Emitted.nil, le_rfl, hle, hlimit⟩

/-- A chunk has a block. -/
theorem chunkBlocks_pos (batch : Uint64) : 0 < (chunkBlocks batch).val := by
  rw [chunkBlocks]
  by_cases h : batch = 0 ∨ batch > maxRangeBlocks
  · rw [if_pos h]
    decide
  · rw [if_neg h]
    exact Nat.pos_of_ne_zero fun hzero => h (.inl (Fin.ext hzero))

theorem effectiveLimit_pos {limit : Int} (h : 0 < limit) : 0 < effectiveLimit limit := by
  simp only [effectiveLimit, maximumBackfillCandidates]
  omega

theorem chunkBlocks_val (batch : Uint64) :
    (chunkBlocks batch).val = if batch.val = 0 then 256 else min batch.val 256 := by
  have hzero : batch = 0 ↔ batch.val = 0 := ⟨fun h => h ▸ rfl, fun h => Fin.ext h⟩
  have hlarge : batch > maxRangeBlocks ↔ 256 < batch.val := Iff.rfl
  rw [chunkBlocks]
  by_cases h : batch = 0 ∨ batch > maxRangeBlocks
  · rw [if_pos h]
    show 256 = _
    rcases h with h | h
    · rw [if_pos (hzero.mp h)]
    · rw [min_eq_right (hlarge.mp h).le, ite_self]
  · obtain ⟨hpos, hsmall⟩ := not_or.mp h
    rw [if_neg h, if_neg fun h => hpos (hzero.mpr h)]
    exact (min_eq_left (Nat.le_of_not_lt hsmall)).symm

/-- An empty answer is exact where nothing is asked for. -/
theorem gapsExact_nil (h : through < configuredStart ∨ limit = 0) :
    GapsExact configuredStart ranges through size limit [] := by
  refine ⟨Pairwise.nil, fun _ hr => (nomatch hr), Nat.zero_le _, fun hroom n => ?_,
    fun _ _ hlast => (nomatch hlast)⟩
  rcases h with hbelow | rfl
  · refine iff_of_false (covers_nil n) ?_
    rintro ⟨hlow, hhigh, -⟩
    exact absurd (le_trans hlow hhigh) (not_le.mpr hbelow)
  · exact absurd hroom (lt_irrefl 0)

/-- **Gap enumeration**: the walk over a normalized coverage returns sorted chunks of at
    most a batch, which are all uncovered heights, or the lowest ones when the limit is
    reached; and it returns them even under arithmetic that stops where Go's wraps. -/
theorem gaps_exact {configuredStart : Uint64} {ranges : List BlockRange}
    (hnormal : Normalized ranges) (through batch : Uint64) (limit : Int) :
    ∃ result,
      missingBackfillRanges .wrapping configuredStart ranges through batch limit = some result ∧
      missingBackfillRanges .checked configuredStart ranges through batch limit = some result ∧
      GapsExact configuredStart ranges through
        (if batch.val = 0 then 256 else min batch.val 256) (effectiveLimit limit) result := by
  rw [← chunkBlocks_val]
  by_cases hnone : through < configuredStart ∨ limit ≤ 0
  · refine ⟨[], if_pos hnone, if_pos hnone, gapsExact_nil (hnone.imp_right fun hle => ?_)⟩
    exact Int.toNat_eq_zero.mpr (le_trans (min_le_left _ _) hle)
  · obtain ⟨hle, hpos⟩ := not_or.mp hnone
    obtain ⟨result, hresult, hexact⟩ := coverageLoop_exact (chunkBlocks_pos batch)
      (Walk.initial hnormal (not_lt.mp hle) (effectiveLimit_pos (not_le.mp hpos)))
    refine ⟨result, ?_, ?_, hexact⟩
    · rw [missingBackfillRanges, if_neg hnone]
      exact hresult _ Arithmetic.wrapping_lenient
    · rw [missingBackfillRanges, if_neg hnone]
      exact hresult _ Arithmetic.checked_lenient

/-- The walk up to the greatest height, over a range that ends there. -/
theorem gaps_exact_top : ∃ result,
      missingBackfillRanges .wrapping 3 [⟨5, 6⟩, ⟨9, maxUint64⟩] maxUint64 2 256
        = some result ∧
      missingBackfillRanges .checked 3 [⟨5, 6⟩, ⟨9, maxUint64⟩] maxUint64 2 256
        = some result ∧
      GapsExact 3 [⟨5, 6⟩, ⟨9, maxUint64⟩] maxUint64 2 256 result := by
  refine gaps_exact ⟨?_, ?_⟩ maxUint64 2 256
  · intro r hr
    simp only [mem_cons, not_mem_nil, or_false] at hr
    rcases hr with rfl | rfl
    · decide
    · exact le_maxUint64 9
  · refine pairwise_pair.mpr ⟨by decide, fun hcover => ?_⟩
    exact hcover.2 (show (6 : Uint64) < 7 by decide) (by decide)

end Syncer
