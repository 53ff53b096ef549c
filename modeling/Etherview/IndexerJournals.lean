import Etherview.IndexerSafe

/-! # Journal flags

    A journal entry carries a flag that says whether its block is canonical.  A reorg
    and a replacement rewrite the flags of what they detach and attach; the two commits
    do not.  `Call.flags_iff` says what that means for one call: the flags stay right
    unless a commit brings back a block that already has entries.
    `journal_flags_track` is the invariant of the runs in which no commit does, and
    `journal_flag_stale` is a run in which one does. -/

namespace Store

open IntervalSet Transact MapUpdate List Finmap

variable {B H : Type} [DecidableEq H] [ChainBundle B H]

/-- The block with a hash is canonical at its own height. -/
def HashCanonical (s : MemoryChain B H) (hash : H) : Prop :=
  ∃ b r, s.blocks.lookup hash = some b ∧ refFromBundle b = .ok r
    ∧ s.canonical.lookup r.number = some hash

/-- Every entry is filed under its block and flagged as canonical exactly when the
    block is. -/
def FlagsTrack (s : MemoryChain B H) : Prop :=
  ∀ hash, ∀ entry ∈ s.entries hash, entry.blockHash = hash
    ∧ (entry.canonical = true ↔ HashCanonical s hash)

/-- A commit that brings back no block with entries: what it adds to the chain has
    none yet. -/
def Call.CommitsFresh : Call B H → MemoryChain B H → Prop
  | .commitCanonical bundle _, s => ∀ r, refFromBundle bundle = .ok r →
      HashCanonical s r.hash ∨ s.entries r.hash = []
  | .commitCanonicalSegment bundles, s => ∀ bundle ∈ bundles, ∀ r,
      refFromBundle bundle = .ok r → HashCanonical s r.hash ∨ s.entries r.hash = []
  | _, _ => True

section Step

variable {s t : MemoryChain B H} {hash : H}

theorem hashCanonical_iff (hs : WellFormed s) :
    HashCanonical s hash ↔ ∃ n, s.canonical.lookup n = some hash := by
  constructor
  · rintro ⟨b, r, -, -, hn⟩
    exact ⟨r.number, hn⟩
  · rintro ⟨n, hn⟩
    obtain ⟨b, r, hb, hr, rfl⟩ := hs.canonical n hash hn
    exact ⟨b, r, hb, hr, hn⟩

theorem canonical_height_unique (hs : WellFormed s) {n m : Uint64}
    (hn : s.canonical.lookup n = some hash) (hm : s.canonical.lookup m = some hash) : n = m := by
  obtain ⟨b, r, hb, hr, rfl⟩ := hs.canonical n hash hn
  obtain ⟨b', r', hb', hr', rfl⟩ := hs.canonical m hash hm
  cases hb.symm.trans hb'
  cases hr.symm.trans hr'
  rfl

omit [ChainBundle B H] in
/-- The search of the store finds a hash iff it stands at a height. -/
theorem memoryHashCanonical_iff :
    memoryHashCanonical s hash = true ↔ ∃ n, s.canonical.lookup n = some hash := by
  rw [memoryHashCanonical, decide_eq_true_eq]
  constructor
  · rintro ⟨n, hn⟩
    exact ⟨n, (Finset.mem_filter.mp hn).2⟩
  · rintro ⟨n, hn⟩
    refine ⟨n, Finset.mem_filter.mpr ⟨?_, hn⟩⟩
    rw [Finmap.mem_keys, mem_iff]
    exact ⟨hash, hn⟩

/-- The flags of a chain with the same entries and the same canonical hashes. -/
theorem FlagsTrack.congr (h : FlagsTrack s) (hentries : ∀ hash, t.entries hash = s.entries hash)
    (hcanonical : ∀ hash, s.entries hash ≠ [] →
      (HashCanonical t hash ↔ HashCanonical s hash)) :
    FlagsTrack t := by
  intro hash entry hentry
  rw [hentries] at hentry
  obtain ⟨hfiled, hflag⟩ := h hash entry hentry
  exact ⟨hfiled, hflag.trans (hcanonical hash (ne_nil_of_mem hentry)).symm⟩

/-! ## Commits -/

/-- A commit adds canonical hashes and leaves the journals alone. -/
structure Added (s t : MemoryChain B H) (refs : List (BlockRef H)) : Prop where
  journals_eq : t.journals = s.journals
  canonical : ∀ hash, HashCanonical t hash ↔ HashCanonical s hash
    ∨ ∃ r ∈ refs, r.hash = hash

/-- Added blocks keep the flags iff each was canonical or has no entries. -/
theorem Added.flags_iff {refs : List (BlockRef H)} (hadded : Added s t refs) (h : FlagsTrack s) :
    FlagsTrack t ↔ ∀ r ∈ refs, HashCanonical s r.hash ∨ s.entries r.hash = [] := by
  have hentries : ∀ hash, t.entries hash = s.entries hash := by
    intro hash
    rw [MemoryChain.entries, hadded.journals_eq]
    rfl
  constructor
  · intro ht r hr
    by_contra hno
    rw [not_or] at hno
    obtain ⟨entry, hentry⟩ := exists_mem_of_ne_nil _ hno.2
    have hflag := (h r.hash entry hentry).2
    rw [← hentries] at hentry
    have hnew : HashCanonical t r.hash := (hadded.canonical _).mpr (.inr ⟨r, hr, rfl⟩)
    exact hno.1 (hflag.mp ((ht r.hash entry hentry).2.mpr hnew))
  · intro hfresh
    refine h.congr hentries fun hash hne => ?_
    rw [hadded.canonical]
    constructor
    · rintro (hold | ⟨r, hr, rfl⟩)
      · exact hold
      · exact (hfresh r hr).resolve_right hne
    · exact .inl

/-- A segment commit adds exactly the blocks of the segment. -/
theorem commitCanonicalSegment_added {bundles : List B} {result : CoreCoverage H}
    (hs : WellFormed s) (hrun : (commitCanonicalSegment bundles).run s = (.ok result, t)) :
    ∃ refs, Added s t refs ∧ ∀ r, (∃ b ∈ bundles, refFromBundle b = .ok r)
      ↔ r ∈ refs := by
  obtain ⟨items, start, hitems, heff⟩ := commitCanonicalSegment_effect hs hrun
  obtain ⟨-, howned, -, hcopies⟩ := validateCanonicalSegment_ok hitems
  refine ⟨items.map Prod.fst, ⟨heff.journals_eq, fun hash => ?_⟩, fun r => ?_⟩
  · rw [hashCanonical_iff heff.moved.after, hashCanonical_iff hs]
    constructor
    · rintro ⟨n, hn⟩
      obtain ⟨r, hr, rfl⟩ : ∃ r, t.refAt n = some r ∧ r.hash = hash := by
        rw [← heff.moved.after.refAt_map_hash] at hn
        exact Option.map_eq_some_iff.mp hn
      rcases heff.moved.refAt_cases hr with ⟨p, hp, rfl, -⟩ | ⟨-, -, hold⟩
      · exact .inr ⟨p.1, mem_map_of_mem hp, rfl⟩
      · exact .inl ⟨n, (hs.refAt_some hold).2⟩
    · rintro (⟨n, hn⟩ | ⟨r, hr, rfl⟩)
      · exact ⟨n, commitCanonicalSegment_preserved hs hrun n n (le_refl n) hash hn⟩
      · obtain ⟨p, hp, rfl⟩ := mem_map.mp hr
        exact ⟨_, (heff.moved.after.refAt_some (heff.moved.refAt_attached hp)).2⟩
  · rw [attached_ref_iff hcopies howned]
    exact mem_map.symm

variable {bundle : B} {u : Unit}

/-- A commit adds its block. -/
theorem commitCanonical_added {checkpoint : Checkpoint H}
    (hs : WellFormed s) (hrun : (commitCanonical bundle checkpoint).run s = (.ok u, t)) :
    ∃ r, refFromBundle bundle = .ok r ∧ Added s t [r] := by
  have ht := commitCanonical_wellFormed hs hrun
  obtain ⟨copy, r, hcopy, hr, -, -, hcase⟩ := commitCanonical_run.mp hrun
  have hbundle : refFromBundle bundle = .ok r := by
    rw [← refFromBundle_clone hcopy]
    exact hr
  refine ⟨r, hbundle, ?_, fun hash => ?_⟩
  · rcases hcase with ⟨-, rfl⟩ | ⟨-, -, rfl⟩
    · rfl
    · rfl
  · rw [hashCanonical_iff ht, hashCanonical_iff hs, exists_mem_cons_iff]
    have hlookup : ∀ n, t.canonical.lookup n = some hash ↔
        s.canonical.lookup n = some hash ∨ (n = r.number ∧ r.hash = hash) := by
      intro n
      rcases hcase with ⟨hsame, rfl⟩ | ⟨hfree, -, rfl⟩
      · refine ⟨.inl, ?_⟩
        rintro (hold | ⟨rfl, rfl⟩)
        · exact hold
        · exact hsame
      · show (s.canonical.insert r.number r.hash).lookup n = some hash ↔ _
        by_cases hn : n = r.number
        · rw [hn, lookup_insert, hfree]
          simp
        · rw [lookup_insert_of_ne _ hn]
          simp [hn]
    constructor
    · rintro ⟨n, hn⟩
      rcases (hlookup n).mp hn with hold | ⟨-, rfl⟩
      · exact .inl ⟨n, hold⟩
      · exact .inr (.inl rfl)
    · rintro (⟨n, hn⟩ | rfl | ⟨r', hr', -⟩)
      · exact ⟨n, (hlookup n).mpr (.inl hn)⟩
      · exact ⟨r.number, (hlookup _).mpr (.inr ⟨rfl, rfl⟩)⟩
      · cases hr'

/-! ## Reorgs and replacements -/

omit [DecidableEq H] [ChainBundle B H] in
theorem setFlags_setFlags (flag : Bool) (entries : List (JournalEntry H)) :
    setFlags flag (setFlags flag entries) = setFlags flag entries := by
  rw [setFlags, setFlags, map_map]
  rfl

variable {detached : List (BlockRef H)} {items : List (BlockRef H × B)} {cut : Uint64}

/-- What a rebase leaves in the journal of a block. -/
theorem Rebased.entries_eq (h : Rebased s t cut detached items) (hash : H) : t.entries hash =
      if ∃ r ∈ items.map Prod.fst, r.hash = hash then
        setFlags true (if ∃ d ∈ detached, d.hash = hash then setFlags false (s.entries hash)
          else s.entries hash)
      else if ∃ d ∈ detached, d.hash = hash then setFlags false (s.entries hash)
      else s.entries hash := by
  rw [MemoryChain.entries, h.journals_eq, lookup_adjustAll (setFlags_setFlags true),
    lookup_adjustAll (setFlags_setFlags false)]
  rfl

/-- After a rebase, the attached hashes are canonical and the detached ones are not. -/
theorem Rebased.hashCanonical_iff (h : Rebased s t cut detached items) (hash : H) :
    HashCanonical t hash ↔ (∃ r ∈ items.map Prod.fst, r.hash = hash)
      ∨ (HashCanonical s hash ∧ ¬ ∃ d ∈ detached, d.hash = hash) := by
  have hs := h.moved.before
  have ht := h.moved.after
  rw [Store.hashCanonical_iff ht, Store.hashCanonical_iff hs]
  constructor
  · rintro ⟨n, hn⟩
    obtain ⟨r, hr, rfl⟩ : ∃ r, t.refAt n = some r ∧ r.hash = hash := by
      rw [← ht.refAt_map_hash] at hn
      exact Option.map_eq_some_iff.mp hn
    rcases h.moved.refAt_cases hr with ⟨p, hp, rfl, -⟩ | ⟨-, hkept, hold⟩
    · exact .inl ⟨p.1, mem_map_of_mem hp, rfl⟩
    · have hlook := (hs.refAt_some hold).2
      refine .inr ⟨⟨n, hlook⟩, ?_⟩
      rintro ⟨d, hd, hdh⟩
      have hcanon := h.detached_canonical d hd
      rw [hdh] at hcanon
      exact hkept d hd (canonical_height_unique hs hcanon hlook)
  · rintro (⟨r, hr, rfl⟩ | ⟨⟨n, hn⟩, hno⟩)
    · obtain ⟨p, hp, rfl⟩ := mem_map.mp hr
      exact ⟨_, (ht.refAt_some (h.moved.refAt_attached hp)).2⟩
    · -- a kept hash lies below the cut
      refine ⟨n, ?_⟩
      have hlt : n < cut := by
        by_contra hle
        have hsome : s.refAt n ≠ none := fun hnone => by
          rw [hs.refAt_eq_none.mp hnone] at hn
          cases hn
        obtain ⟨d, hd, rfl⟩ := not_kept.mp (h.detached_all n (not_lt.mp hle) hsome)
        have hcanon := h.detached_canonical d hd
        rw [hn] at hcanon
        exact hno ⟨d, hd, (Option.some.inj hcanon).symm⟩
      rw [h.lookup_below hlt]
      exact hn

/-- **A rebase keeps the flags right.** -/
theorem Rebased.flagsTrack (h : Rebased s t cut detached items) (hflags : FlagsTrack s) :
    FlagsTrack t := by
  have hset : ∀ {flag : Bool} {hash : H} {entries : List (JournalEntry H)}
      {entry : JournalEntry H},
      (∀ e ∈ entries, e.blockHash = hash) → entry ∈ setFlags flag entries →
      entry.blockHash = hash ∧ entry.canonical = flag := by
    intro flag hash entries entry hfiled hentry
    obtain ⟨e, he, rfl⟩ := mem_map.mp hentry
    exact ⟨hfiled e he, rfl⟩
  intro hash entry hentry
  have hfiled : ∀ e ∈ s.entries hash, e.blockHash = hash := fun e he => (hflags hash e he).1
  rw [h.entries_eq] at hentry
  rw [h.hashCanonical_iff]
  by_cases hitem : ∃ r ∈ items.map Prod.fst, r.hash = hash
  · -- attached: flagged last, even if its block was detached before
    rw [if_pos hitem] at hentry
    have hinner :
        ∀ e ∈ (if ∃ d ∈ detached, d.hash = hash then setFlags false (s.entries hash)
        else s.entries hash), e.blockHash = hash := by
      intro e he
      split_ifs at he
      · exact (hset hfiled he).1
      · exact hfiled e he
    obtain ⟨hblock, hflag⟩ := hset hinner hentry
    exact ⟨hblock, by rw [hflag]; exact ⟨fun _ => .inl hitem, fun _ => rfl⟩⟩
  · rw [if_neg hitem] at hentry
    by_cases hdetached : ∃ d ∈ detached, d.hash = hash
    · -- detached and not attached again
      rw [if_pos hdetached] at hentry
      obtain ⟨hblock, hflag⟩ := hset hfiled hentry
      refine ⟨hblock, ?_⟩
      rw [hflag]
      refine ⟨(fun hno => by cases hno), ?_⟩
      rintro (hin | ⟨-, hno⟩)
      · exact absurd hin hitem
      · exact absurd hdetached hno
    · -- untouched: flag and canonicality are as before
      rw [if_neg hdetached] at hentry
      obtain ⟨hblock, hflag⟩ := hflags hash entry hentry
      refine ⟨hblock, hflag.trans ?_⟩
      constructor
      · exact fun hold => .inr ⟨hold, hdetached⟩
      · rintro (hin | ⟨hold, -⟩)
        · exact absurd hin hitem
        · exact hold

/-! ## One call -/

/-- A new entry is flagged as its block is. -/
theorem appendJournal_flags {entry : JournalEntry H} (hs : WellFormed s)
    (h : FlagsTrack s) (hrun : (appendJournal entry).run s = (.ok u, t)) : FlagsTrack t := by
  obtain ⟨-, -, -, -, rfl⟩ := appendJournal_run.mp hrun
  intro hash e he
  show e.blockHash = hash ∧ (e.canonical = true ↔ HashCanonical s hash)
  by_cases hhash : hash = entry.blockHash
  · have hentries : e ∈ s.entries hash ++
        [{ entry with canonical := memoryHashCanonical s entry.blockHash }] := by
      rw [MemoryChain.entries, hhash, lookup_insert] at he
      rw [hhash]
      exact he
    rcases mem_append.mp hentries with hold | hnew
    · exact h hash e hold
    · rw [mem_singleton.mp hnew, hashCanonical_iff hs, hhash]
      exact ⟨rfl, memoryHashCanonical_iff⟩
  · rw [MemoryChain.entries, lookup_insert_of_ne _ hhash] at he
    exact h hash e he

variable [ToString H]

/-- A refresh drops the entries of its block. -/
theorem refreshCanonical_flags {options : RefreshOptions} (hs : WellFormed s) (h : FlagsTrack s)
    (hrun : (refreshCanonical bundle options).run s = (.ok u, t)) : FlagsTrack t := by
  have ht := refreshCanonical_wellFormed hs hrun
  obtain ⟨copy, reference, -, -, -, -, -, rfl⟩ := refreshCanonical_run.mp hrun
  intro hash e he
  rw [hashCanonical_iff ht]
  show e.blockHash = hash ∧ (e.canonical = true ↔ ∃ n, s.canonical.lookup n = some hash)
  rw [← hashCanonical_iff hs]
  have hentries : (MemoryChain.entries (putBlock reference copy
      { s with journals := s.journals.erase reference.hash }) hash)
      = ((s.journals.erase reference.hash).lookup hash).getD [] := rfl
  rw [hentries] at he
  by_cases hhash : hash = reference.hash
  · rw [hhash, lookup_erase] at he
    cases he
  · rw [lookup_erase_ne hhash] at he
    exact h hash e he

/-- **One call.**  A disciplined call keeps the flags right exactly when its commits
    are fresh. -/
theorem Call.flags_iff {call : Call B H} (hs : WellFormed s) (h : FlagsTrack s)
    (hdisc : call.Disciplined s) (hrun : call.exec.run s = (.ok u, t)) :
    FlagsTrack t ↔ call.CommitsFresh s := by
  cases call with
  | configureIndex start => exact absurd hdisc id
  | commitCanonical bundle checkpoint =>
    obtain ⟨r, hr, hadded⟩ := commitCanonical_added hs hrun
    rw [hadded.flags_iff h]
    constructor
    · intro hfresh r' hr'
      cases hr.symm.trans hr'
      exact hfresh r (mem_singleton.mpr rfl)
    · intro hfresh r' hr'
      rw [mem_singleton.mp hr']
      exact hfresh r hr
  | commitCanonicalSegment bundles =>
    obtain ⟨result, hsegment, rfl⟩ := Tx.run_map_ok hrun
    obtain ⟨refs, hadded, hrefs⟩ := commitCanonicalSegment_added hs hsegment
    rw [hadded.flags_iff h]
    constructor
    · intro hfresh bundle hbundle r hr
      exact hfresh r ((hrefs r).mp ⟨bundle, hbundle, hr⟩)
    · intro hfresh r hr
      obtain ⟨bundle, hbundle, href⟩ := (hrefs r).mpr hr
      exact hfresh bundle hbundle r href
  | applyReorg reorg =>
    obtain ⟨items, hrebased, -, -⟩ := applyReorg_rebased hs hdisc hrun
    exact ⟨fun _ => trivial, fun _ => hrebased.flagsTrack h⟩
  | replaceHighestCanonicalSegment replacement =>
    obtain ⟨result, hreplace, rfl⟩ := Tx.run_map_ok hrun
    obtain ⟨items, hrebased, -, -⟩ := replaceHighestCanonicalSegment_rebased hs hdisc hreplace
    exact ⟨fun _ => trivial, fun _ => hrebased.flagsTrack h⟩
  | refreshCanonical bundle options =>
    exact ⟨fun _ => trivial, fun _ => refreshCanonical_flags hs h hrun⟩
  | updateFinality finality =>
    obtain ⟨-, -, -, -, rfl⟩ := updateFinality_run.mp hrun
    exact ⟨fun _ => trivial, fun _ => h⟩
  | appendJournal entry =>
    exact ⟨fun _ => trivial, fun _ => appendJournal_flags hs h hrun⟩

/-- A well-formed chain whose flags are right. -/
structure Flagged (s : MemoryChain B H) : Prop where
  wellFormed : WellFormed s
  flags : FlagsTrack s

theorem Call.next_flagged {call : Call B H} (h : Flagged s) (hdisc : call.Disciplined s)
    (hfresh : (call.exec.run s).1.isOk = true → call.CommitsFresh s) : Flagged (call.next s) := by
  have hnext := call.wellFormed h.wellFormed
  rw [Call.next] at hnext ⊢
  rcases hrun : call.exec.run s with ⟨err | u, t⟩
  · rw [Call.atomic h.wellFormed.unconfigured hrun]
    exact h
  · rw [hrun] at hnext hfresh
    exact ⟨hnext, (Call.flags_iff h.wellFormed h.flags hdisc hrun).mpr (hfresh rfl)⟩

/-- An empty repository, with or without a configured start. -/
def initialChain : Option Uint64 → MemoryChain B H
  | none => MemoryChain.empty
  | some start => (Call.configureIndex start).next MemoryChain.empty

theorem initialChain_flagged (configured : Option Uint64) :
    Flagged (initialChain configured : MemoryChain B H) := by
  have hempty : Flagged (MemoryChain.empty : MemoryChain B H) := by
    refine ⟨wellFormed_empty, fun hash entry hentry => ?_⟩
    cases hentry
  cases configured with
  | none => exact hempty
  | some start =>
    refine ⟨(Call.configureIndex start).wellFormed hempty.wellFormed,
      fun hash entry hentry => ?_⟩
    cases hentry

end Step

end Store

namespace Indexer

open Store Interaction Transact

variable {B H : Type} [DecidableEq H] [ChainBundle B H] [ToString H]

/-- **Journal flags.**  In every state reached by a run whose successful commits are
    all fresh the flags are right; from such a state a successful call of a lane keeps
    them right exactly when its commits are fresh. -/
theorem journal_flags_track (c : Canonicalizer) {configured : Option Uint64} {t : MemoryChain B H}
    (h : ReachedWhere Call.CommitsFresh c (initialChain configured) t) :
    FlagsTrack t ∧ ∀ (call : Call B H) (u : MemoryChain B H), call.Disciplined t →
      call.exec.run t = (.ok (), u) → (FlagsTrack u ↔ call.CommitsFresh t) := by
  have hinv : Flagged t := lane_safe (fun _ hinv => hinv.wellFormed)
      (fun _ _ hinv hdisc hadmitted => Call.next_flagged hinv hdisc hadmitted)
      (initialChain_flagged configured) h
  exact ⟨hinv.flags, fun call u hdisc hrun => Call.flags_iff hinv.wellFormed
    hinv.flags hdisc hrun⟩

/-! ## Two runs -/

section Runs

/-- An entry for the block at height 2. -/
def entry2 : JournalEntry TermHash where
  blockHash := block2.hash
  stage := "trace"
  sequence := 0
  payload := .json "null"
  canonical := false

/-- Heights 0 to 2 with an entry at height 2. -/
def journaled : MemoryChain TermBundle TermHash := (Call.appendJournal entry2).next unmarked

/-- The two steps of the other lanes. -/
theorem journaled_reached
    {allowed : Call TermBundle TermHash → MemoryChain TermBundle TermHash → Prop}
    (hcommit : allowed (.commitCanonicalSegment [block0, block1, block2]) (initialChain (some 0)))
    (hjournal : allowed (.appendJournal entry2) unmarked) :
    Reaches (laneWorld allowed) (otherLanes allowed) (liveOps plainCanonicalizer)
      (initialChain (some 0)) none journaled :=
  (Relation.ReflTransGen.refl.tail (.env ⟨_, .commit _, fun _ => hcommit, rfl⟩)).tail
    (.env ⟨_, .journal entry2, fun _ => hjournal, rfl⟩)

/-- A run in which no commit succeeds. -/
def acceptNoCommit : Request TermBundle TermHash → MemoryChain TermBundle TermHash → Bool
  | .call (.commitCanonical _ _), _ => false
  | .call (.commitCanonicalSegment _), _ => false
  | _, _ => true

theorem acceptNoCommit_fresh (request : Request TermBundle TermHash)
    (s : MemoryChain TermBundle TermHash) (h : acceptNoCommit request s = true)
    (call : Call TermBundle TermHash) (hcall : request = .call call) : call.CommitsFresh s := by
  subst hcall
  cases call with
  | commitCanonical bundle checkpoint => cases h
  | commitCanonicalSegment bundles => cases h
  | _ => trivial

/-- A reorg takes the block with the entry off. -/
def replaced : MemoryChain TermBundle TermHash :=
  (liveRun acceptNoCommit (.applyHead sibling2) journaled).2

/-- A replaced block keeps its entry, without the flag. -/
theorem journal_flags_track_replaced :
    FlagsTrack replaced ∧ replaced.entries block2.hash = [entry2]
      ∧ FlagsTrack ((Call.commitCanonicalSegment [⟨3, sibling2.hash, 0⟩]).next replaced) := by
  have hcommit : (Call.commitCanonicalSegment [block0, block1, block2]).CommitsFresh
      (initialChain (some 0)) := fun _ _ r _ => .inr rfl
  have hreached : ReachedWhere Call.CommitsFresh plainCanonicalizer
      (initialChain (some 0)) replaced :=
    ⟨none, reaches_ended (laneWorld_serve acceptNoCommit_fresh) 40 ⟨.applyHead sibling2, rfl⟩
      (by decide +kernel) (journaled_reached hcommit trivial)⟩
  obtain ⟨hflags, hcall⟩ := journal_flags_track plainCanonicalizer hreached
  refine ⟨hflags, by decide +kernel,
    (hcall (.commitCanonicalSegment [⟨3, sibling2.hash, 0⟩]) _ trivial
      (Call.run_of_isOk (by decide +kernel))).mpr fun bundle hbundle r hr => .inr ?_⟩
  rw [List.mem_singleton.mp hbundle] at hr
  cases hr
  decide +kernel

/-- The head is truncated to height 1, and then height 2 comes back. -/
def truncated : MemoryChain TermBundle TermHash :=
  (liveRun (fun _ _ => true) (.applyHead block1) journaled).2

/-- The truncated chain after its block is applied again. -/
def restored : MemoryChain TermBundle TermHash :=
  (liveRun (fun _ _ => true) (.applyHead block2) truncated).2

/-- The block is canonical again, its entry says it is not. -/
theorem journal_flag_stale :
    Reached plainCanonicalizer (initialChain (some 0)) restored
      ∧ truncated.tip = some block1.ref ∧ restored.tip = some block2.ref
      ∧ restored.entries block2.hash = [{ entry2 with canonical := false }]
      ∧ ¬ FlagsTrack restored := by
  have hserve : ∀ (request : Request TermBundle TermHash) s, true = true →
      (laneWorld fun _ _ => True).serves request s _ _ := laneWorld_serve fun _ _ _ _ _ => trivial
  have htruncated := reaches_ended hserve 40 ⟨.applyHead block1, rfl⟩ (by decide +kernel)
    (journaled_reached trivial trivial)
  refine ⟨⟨none, reaches_ended hserve 40 ⟨.applyHead block2, rfl⟩
    (by decide +kernel) htruncated⟩,
    by decide +kernel, by decide +kernel, by decide +kernel, fun h => ?_⟩
  have hentry : entry2 ∈ restored.entries block2.hash := by decide +kernel
  have hcanonical : HashCanonical restored block2.hash :=
    ⟨block2, block2.ref, by decide +kernel, rfl, by decide +kernel⟩
  exact absurd ((h block2.hash entry2 hentry).2.mpr hcanonical) (by decide)

end Runs

end Indexer
