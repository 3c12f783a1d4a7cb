import AnalyseTCP.InsertLoop

/-!
# What an insertion makes, on any map

`Pass` describes the passes of `insertByteRange` over a separated map.  Behind a gap the ranges of a
map may overlap; there it is no longer known where in the map a pass puts its entries, but still
which entries it makes.  Each of them is a `Piece`, and what holds of every entry and is passed on to
the pieces holds after the insertion.
-/

namespace AnalyseTCP

namespace RangeManager

/-- An entry that one pass over data from `s` up to `e` makes from the entries `l`; the next pass
starts at the last but one argument. -/
inductive Piece (l : List Entry) (itype : InsertType) (seg : DataSeg) (level s e : ℕ) :
    Option ℕ → Entry → Prop
  | fresh (hitype : itype = .sent) (hfree : ∀ o ∈ l, o.1 ≠ s) (hsize : e - s < 2 ^ 16 - 1) :
      Piece l itype seg level s e none (s, freshRange seg s e)
  | whole (r : ByteRange) (hmem : (s, r) ∈ l) (hend : r.endSeq = e) :
      Piece l itype seg level s e none (s, wholeRange itype seg level s r)
  | front (r : ByteRange) (hmem : (s, r) ∈ l) (hend : e < r.endSeq) :
      Piece l itype seg level s e none
        (s, recordFound seg level (thisIsRdbData seg s) itype (r.head e))
  | frontRest (r : ByteRange) (hmem : (s, r) ∈ l) (hend : e < r.endSeq)
      (hrest : ∀ o ∈ l, o.1 ≠ e) :
      Piece l itype seg level s e none (e, r.tail e)
  | span (r : ByteRange) (hmem : (s, r) ∈ l) (hbytes : s < r.endSeq) (hend : r.endSeq < e) :
      Piece l itype seg level s e (some r.endSeq)
        (s, recordFound seg level (thisIsRdbData seg s) itype r)
  | reuse (r : ByteRange) (c : ℕ) (hmem : (s, r) ∈ l) (hitype : itype = .sent)
      (hempty : r.endSeq = s) (hlo : s < c) (hhi : c ≤ e) (hsize : c - s < 2 ^ 16 - 1)
      (hnext : c < e → ∃ o ∈ l, o.1 = c) :
      Piece l itype seg level s e (if c < e then some c else none) (s, reusedRange seg s c r)
  | cutHead (key : ℕ) (r : ByteRange) (next : Option ℕ) (hfree : ∀ o ∈ l, o.1 ≠ s)
      (hmem : (key, r) ∈ l) (hkey : key < s) (hlo : s < r.endSeq) :
      Piece l itype seg level s e next (key, r.head s)
  | back (key : ℕ) (r : ByteRange) (hfree : ∀ o ∈ l, o.1 ≠ s) (hmem : (key, r) ∈ l)
      (hkey : key < s) (hlo : s < r.endSeq) (hend : r.endSeq = e) :
      Piece l itype seg level s e none
        (s, recordSplit seg level (thisIsRdbData seg s) itype (finSet seg (r.tail s)))
  | middle (key : ℕ) (r : ByteRange) (hfree : ∀ o ∈ l, o.1 ≠ s) (hmem : (key, r) ∈ l)
      (hkey : key < s) (hend : e < r.endSeq) :
      Piece l itype seg level s e none
        (s, recordSplit seg level (thisIsRdbData seg s) itype (finSet seg ((r.tail s).head e)))
  | middleRest (key : ℕ) (r : ByteRange) (hfree : ∀ o ∈ l, o.1 ≠ s) (hmem : (key, r) ∈ l)
      (hkey : key < s) (hend : e < r.endSeq) (hrest : ∀ o ∈ l, o.1 ≠ e) :
      Piece l itype seg level s e none (e, (r.tail s).tail e)
  | beyond (key : ℕ) (r : ByteRange) (hfree : ∀ o ∈ l, o.1 ≠ s) (hmem : (key, r) ∈ l)
      (hkey : key < s) (hlo : s < r.endSeq) (hend : r.endSeq < e) :
      Piece l itype seg level s e (some r.endSeq)
        (s, recordSplit seg level (thisIsRdbData seg s) itype (r.tail s))

/-- The entries after a pass are old ones and pieces, and no key is lost. -/
structure MadeOf (rm : RangeManager) (itype : InsertType) (seg : DataSeg) (level s e : ℕ)
    (out : Outcome) : Prop where
  frame : OnlyRanges rm out.rm
  keys : OrdMap.KeysKept rm.ranges out.rm.ranges
  bounds : ∀ s', out.next = some s' → s < s' ∧ s' < e
  stop : ∀ s', out.next = some s' →
    (∃ o ∈ rm.ranges.entries, o.2.endSeq = s') ∨ ∃ o ∈ rm.ranges.entries, o.1 = s'
  entries : ∀ en ∈ out.rm.ranges.entries, en ∈ rm.ranges.entries ∨
    Piece rm.ranges.entries itype seg level s e out.next en
  last : itype = .recv → rm.ranges.find? s = none →
    out.rm.ranges = rm.ranges ∨ s < rm.lastSeq

section Body

variable {rm : RangeManager} {itype : InsertType} {seg : DataSeg} {level s e : ℕ} {out : Outcome}

theorem insertNew_madeOf (hfree : ∀ o ∈ rm.ranges.entries, o.1 ≠ s) (hlt : s < e)
    (hsize : itype = .sent → e - s < 2 ^ 16 - 1)
    (hitype : itype ≠ .sojourn) (h : rm.insertNew s e itype seg = .ok out) :
    MadeOf rm itype seg level s e out := by
  cases itype with
  | sojourn => exact absurd rfl hitype
  | recv =>
      obtain rfl : .done rm true = out := Except.ok.inj h
      exact ⟨rfl, .refl _, fun s' hs => (nomatch hs), fun s' hs => (nomatch hs),
        fun en hen => .inl hen, fun _ _ => .inl rfl⟩
  | sent =>
      obtain ⟨r, hr, h⟩ := Run.exists_of_bind_ok h
      rw [newDataRange_eq hlt (hsize rfl)] at hr
      split at hr
      · cases hr
      · obtain rfl := Except.ok.inj hr
        obtain rfl := Except.ok.inj h
        refine ⟨rfl, OrdMap.keysKept_insert _ _ _, fun s' hs => (nomatch hs),
          fun s' hs => (nomatch hs), fun en hen => ?_, fun h => by cases h⟩
        rcases OrdMap.mem_insert hen with rfl | hen
        · exact .inr (.fresh rfl hfree (hsize rfl))
        · exact .inl hen

/-- An entry of a map whose entry at `key` was cut is old, the head, or the inserted one, if its key
was free. -/
theorem mem_cut {m : OrdMap ℕ ByteRange} {key k : ℕ} {v w : ByteRange} {en : Entry}
    (h : en ∈ ((m.modify key fun _ => v).insert k w).entries) :
    en ∈ m.entries ∨ en = (key, v) ∨ (en = (k, w) ∧ ∀ o ∈ m.entries, o.1 ≠ k) := by
  rcases OrdMap.mem_insert_free h with h | ⟨rfl, hfree⟩
  · rcases OrdMap.mem_modify h with h | ⟨_, _, rfl⟩
    · exact .inl h
    · exact .inr (.inl rfl)
  · refine .inr (.inr ⟨rfl, ?_⟩)
    exact OrdMap.free_of_kept (OrdMap.keysKept_modify m key fun _ => v) hfree

theorem keysKept_cut (m : OrdMap ℕ ByteRange) (key k : ℕ) (v w : ByteRange) :
    OrdMap.KeysKept m ((m.modify key fun _ => v).insert k w) :=
  (OrdMap.keysKept_modify m key _).trans (OrdMap.keysKept_insert _ k w)

theorem splitExisting_madeOf {key : ℕ} {r : ByteRange} (hwf : WfEntries rm.ranges.entries)
    (hfree : ∀ o ∈ rm.ranges.entries, o.1 ≠ s) (hmem : (key, r) ∈ rm.ranges.entries)
    (hkey : key < s) (hhi : s < r.endSeq) (hlt : s < e) (hlast : s < rm.lastSeq)
    (h : rm.splitExisting s e itype seg level key r = .ok out) :
    MadeOf rm itype seg level s e out := by
  have hr : key = r.startSeq ∧ r.Wf := hwf _ hmem
  have hlo : r.startSeq < s := by omega
  -- the cut range ends behind the data (three pieces), with it, or before it (a further call)
  rcases lt_trichotomy e r.endSeq with hin | hend | hout
  · rw [splitExisting_middle hr.2 hlo hlt hin] at h
    obtain rfl := Except.ok.inj h
    refine ⟨rfl, (keysKept_cut _ _ _ _ _).trans (OrdMap.keysKept_insert _ _ _),
      fun s' hs => (nomatch hs), fun s' hs => (nomatch hs), fun en hen => ?_,
      fun _ _ => .inr hlast⟩
    rcases OrdMap.mem_insert hen with rfl | hen
    · exact .inr (.middle key r hfree hmem hkey hin)
    · rcases mem_cut hen with hen | rfl | ⟨rfl, hrest⟩
      · exact .inl hen
      · exact .inr (.cutHead key r none hfree hmem hkey hhi)
      · exact .inr (.middleRest key r hfree hmem hkey hin hrest)
  · rw [splitExisting_back hr.2 hlo hhi hend] at h
    obtain rfl := Except.ok.inj h
    refine ⟨rfl, keysKept_cut _ _ _ _ _, fun s' hs => (nomatch hs), fun s' hs => (nomatch hs),
      fun en hen => ?_, fun _ _ => .inr hlast⟩
    rcases mem_cut hen with hen | rfl | ⟨rfl, hrest⟩
    · exact .inl hen
    · exact .inr (.cutHead key r none hfree hmem hkey hhi)
    · exact .inr (.back key r hfree hmem hkey hhi hend.symm)
  · rw [splitExisting_beyond hr.2 hlo hhi hout] at h
    obtain rfl := Except.ok.inj h
    refine ⟨rfl, keysKept_cut _ _ _ _ _, fun s' hs => ?_, fun s' hs => ?_, fun en hen => ?_,
      fun _ _ => .inr hlast⟩
    · obtain rfl := Option.some.inj hs
      exact ⟨hhi, hout⟩
    · exact .inl ⟨_, hmem, Option.some.inj hs⟩
    · rcases mem_cut hen with hen | rfl | ⟨rfl, hrest⟩
      · exact .inl hen
      · exact .inr (.cutHead key r _ hfree hmem hkey hhi)
      · exact .inr (.beyond key r hfree hmem hkey hhi hout)

theorem insertNotFound_madeOf (hwf : WfEntries rm.ranges.entries)
    (hfree : rm.ranges.find? s = none) (hlt : s < e)
    (hsize : itype = .sent → e - s < 2 ^ 16 - 1) (hitype : itype ≠ .sojourn)
    (h : rm.insertNotFound s e itype seg level = .ok out) : MadeOf rm itype seg level s e out := by
  unfold insertNotFound at h
  split at h
  · next hlast =>
    split at h
    · cases h
    · next w ws hw =>
        rw [← hw] at h
        split at h
        · next key r hfind =>
            have hmem := mem_entries_of_mem_searchWindow (List.mem_of_find?_eq_some hfind)
            have hhold : r.Holds s := by
              simpa [ByteRange.Holds] using List.find?_some hfind
            have hkey := key_lt_of_holds hwf hfree hmem hhold
            exact splitExisting_madeOf hwf (OrdMap.find?_eq_none_iff.mp hfree) hmem hkey hhold.2
              hlt hlast h
        · exact insertNew_madeOf (OrdMap.find?_eq_none_iff.mp hfree) hlt hsize hitype h
  · exact insertNew_madeOf (OrdMap.find?_eq_none_iff.mp hfree) hlt hsize hitype h

theorem mem_modify_const {m : OrdMap ℕ ByteRange} {k : ℕ} {v : ByteRange} {en : Entry}
    (h : en ∈ (m.modify k fun _ => v).entries) : en ∈ m.entries ∨ en = (k, v) := by
  rcases OrdMap.mem_modify h with h | ⟨_, _, rfl⟩
  · exact .inl h
  · exact .inr rfl

theorem insertOnEmpty_madeOf {r : ByteRange} {pre post : List Entry}
    (hwf : WfEntries rm.ranges.entries) (hcut : rm.ranges.entries = pre ++ (s, r) :: post)
    (hlt : s < e) (hsize : e - s < 2 ^ 16 - 1) (hempty : r.endSeq = s)
    (h : rm.insertOnEmpty s e seg r = .ok out) : MadeOf rm .sent seg level s e out := by
  have hmem : (s, r) ∈ rm.ranges.entries := by simp [hcut]
  obtain ⟨hlo, hhi, -, hnext⟩ := reuseEnd_bounds hwf hcut hlt
  rw [insertOnEmpty_eq seg hwf hcut hlt hsize hempty] at h
  generalize reuseEnd rm.ranges s e = c at *
  have hsize' : c - s < 2 ^ 16 - 1 := (Nat.sub_le_sub_right hhi s).trans_lt hsize
  have hkey : c < e → ∃ o ∈ rm.ranges.entries, o.1 = c := by
    intro hce
    obtain ⟨o, ho, hoc⟩ := hnext hce
    exact ⟨o, by simp [hcut, ho], hoc⟩
  have hpiece : Piece rm.ranges.entries .sent seg level s e (if c < e then some c else none)
      (s, reusedRange seg s c r) := .reuse r c hmem rfl hempty hlo hhi hsize' hkey
  obtain rfl := Except.ok.inj h
  by_cases hce : c < e
  · rw [if_pos hce] at hpiece ⊢
    refine ⟨rfl, OrdMap.keysKept_modify _ _ _, fun s' hs => ?_, fun s' hs => ?_, fun en hen => ?_,
      fun h => by cases h⟩
    · obtain rfl := Option.some.inj hs
      exact ⟨hlo, hce⟩
    · obtain rfl := Option.some.inj hs
      exact .inr (hkey hce)
    · rcases mem_modify_const hen with hen | rfl
      · exact .inl hen
      · exact .inr hpiece
  · rw [if_neg hce] at hpiece ⊢
    refine ⟨rfl, OrdMap.keysKept_modify _ _ _, fun s' hs => (nomatch hs), fun s' hs => (nomatch hs),
      fun en hen => ?_, fun h => by cases h⟩
    rcases mem_modify_const hen with hen | rfl
    · exact .inl hen
    · exact .inr hpiece

theorem insertFound_madeOf {r : ByteRange} (hwf : WfEntries rm.ranges.entries)
    (hmem : (s, r) ∈ rm.ranges.entries) (hlt : s < e)
    (hsize : itype = .sent → e - s < 2 ^ 16 - 1) (hitype : itype ≠ .sojourn)
    (hrecv : itype = .recv → r.endSeq ≠ s)
    (h : rm.insertFound s e itype seg level r = .ok out) : MadeOf rm itype seg level s e out := by
  obtain ⟨pre, post, hcut⟩ := List.append_of_mem hmem
  have hr : s = r.startSeq ∧ r.Wf := hwf _ hmem
  have hle : r.startSeq ≤ r.endSeq := hr.2.le
  have hfound : rm.ranges.find? s ≠ none := by
    rw [OrdMap.find?_eq_some_iff.mpr hmem]
    simp
  -- the range takes the data as far as it reaches, and the next pass goes on behind it
  have hspan : s < r.endSeq → r.endSeq < e → MadeOf rm itype seg level s e
      (.again { rm with ranges :=
        (rm.ranges.modify s fun _ => recordFound seg level (thisIsRdbData seg s) itype r) }
        r.endSeq) := by
    intro hbytes hout
    refine ⟨rfl, OrdMap.keysKept_modify _ _ _, fun s' hs => ?_, fun s' hs => ?_, fun en hen => ?_,
      fun _ hnone => absurd hnone hfound⟩
    · obtain rfl := Option.some.inj hs
      exact ⟨hbytes, hout⟩
    · exact .inl ⟨_, hmem, Option.some.inj hs⟩
    · rcases mem_modify_const hen with hen | rfl
      · exact .inl hen
      · exact .inr (.span r hmem hbytes hout)
  rcases lt_trichotomy e r.endSeq with hin | hend | hout
  · by_cases hack : itype = .recv ∧ e = add32 rm.firstSeq 1
    · unfold insertFound at h
      rw [if_pos ⟨hin.ne', hack⟩] at h
      cases h
    · rw [insertFound_front hitype hack hr.2 (by omega) hin] at h
      obtain rfl := Except.ok.inj h
      refine ⟨rfl, keysKept_cut _ _ _ _ _, fun s' hs => (nomatch hs), fun s' hs => (nomatch hs),
        fun en hen => ?_, fun _ hnone => absurd hnone hfound⟩
      rcases mem_cut hen with hen | rfl | ⟨rfl, hrest⟩
      · exact .inl hen
      · exact .inr (.front r hmem hin)
      · exact .inr (.frontRest r hmem hin hrest)
  · rw [insertFound_whole hitype hend.symm] at h
    obtain rfl := Except.ok.inj h
    refine ⟨rfl, OrdMap.keysKept_modify _ _ _, fun s' hs => (nomatch hs), fun s' hs => (nomatch hs),
      fun en hen => ?_, fun _ hnone => absurd hnone hfound⟩
    rcases mem_modify_const hen with hen | rfl
    · exact .inl hen
    · exact .inr (.whole r hmem hend.symm)
  · cases itype with
    | sojourn => exact absurd rfl hitype
    | sent =>
        by_cases hempty : r.endSeq = s
        · rw [insertFound_reuse hwf hcut hlt hempty] at h
          exact insertOnEmpty_madeOf hwf hcut hlt (hsize rfl) hempty h
        · have hbytes : r.byteCount ≠ 0 := by
            have := hr.2.size
            omega
          rw [insertFound_span_sent hout hbytes] at h
          split at h
          · cases h
          · exact Except.ok.inj h ▸ hspan (by omega) hout
    | recv =>
        have hbytes := hrecv rfl
        by_cases hack : e = add32 rm.firstSeq 1
        · unfold insertFound at h
          rw [if_pos ⟨hout.ne, rfl, hack⟩] at h
          cases h
        · rw [insertFound_span_recv hack hout] at h
          split at h
          · cases h
          · split at h
            · cases h
            · exact Except.ok.inj h ▸ hspan (by omega) hout

/-- Every pass over data that returns only makes pieces. -/
theorem insertBody_madeOf (hwf : WfEntries rm.ranges.entries) (hlt : s < e)
    (hsize : itype = .sent → e - s < 2 ^ 16 - 1) (hitype : itype ≠ .sojourn)
    (hrecv : itype = .recv → ∀ en ∈ rm.ranges.entries, en.1 = s → en.2.endSeq ≠ s)
    (h : rm.insertBody s e itype seg level = .ok out) : MadeOf rm itype seg level s e out := by
  unfold insertBody at h
  rw [if_neg hlt.ne] at h
  split at h
  · next hfree => exact insertNotFound_madeOf hwf hfree hlt hsize hitype h
  · next r hfind =>
      have hmem : (s, r) ∈ rm.ranges.entries := OrdMap.find?_eq_some_iff.mp hfind
      exact insertFound_madeOf hwf hmem hlt hsize hitype (fun h => hrecv h _ hmem rfl) h

/-! ## Received data on a range without bytes -/

theorem insertBody_stuck {r : ByteRange} (hfind : rm.ranges.find? s = some r) (hempty : r.endSeq = s)
    (hlt : s < e) (h : rm.insertBody s e .recv seg level = .ok out) :
    ∃ rm' r', out = .again rm' s ∧ rm'.ranges.find? s = some r' ∧ r'.endSeq = s := by
  have hout : r.endSeq < e := by omega
  unfold insertBody at h
  rw [if_neg hlt.ne, hfind] at h
  dsimp only at h
  by_cases hack : e = add32 rm.firstSeq 1
  · unfold insertFound at h
    rw [if_pos ⟨hout.ne, rfl, hack⟩] at h
    cases h
  · rw [insertFound_span_recv hack hout] at h
    split at h
    · cases h
    · split at h
      · cases h
      · obtain rfl := Except.ok.inj h
        obtain ⟨pre, post, hcut⟩ := OrdMap.exists_cut_of_find? hfind
        have hmod := OrdMap.entries_modify_of_cut hcut
          fun _ => recordFound seg level (thisIsRdbData seg s) .recv r
        refine ⟨_, _, by rw [hempty], OrdMap.find?_of_cut hmod, ?_⟩
        rw [recordFound_endSeq, hempty]

/-- Received data that meets a range without bytes is never inserted: the range is visited again
and again, until the recursion level is too high. -/
theorem insertLoop_stuck {r : ByteRange} {fuel : ℕ} {res : RangeManager × Bool}
    (hfind : rm.ranges.find? s = some r) (hempty : r.endSeq = s) (hlt : s < e) :
    insertLoop e .recv seg fuel rm s level ≠ .ok res := by
  induction fuel generalizing rm level r with
  | zero => exact fun h => nomatch h
  | succ fuel ih =>
      intro h
      rw [insertLoop] at h
      split at h
      · cases h
      · next hbody =>
          obtain ⟨_, _, hout, -⟩ := insertBody_stuck hfind hempty hlt hbody
          cases hout
      · next hbody =>
          obtain ⟨rm', r', hout, hfind', hempty'⟩ := insertBody_stuck hfind hempty hlt hbody
          cases hout
          exact ih hfind' hempty' h

end Body

theorem Piece.wf {l : List Entry} {itype : InsertType} {seg : DataSeg} {level s e : ℕ}
    {next : Option ℕ} {en : Entry} (h : Piece l itype seg level s e next en) (hwf : WfEntries l)
    (hlt : s < e) : en.1 = en.2.startSeq ∧ en.2.Wf := by
  -- each kind of piece is cut from a well-formed range, or is the data itself
  cases h with
  | fresh hitype hsize =>
      simp [ByteRange.wf_iff]
      omega
  | whole r hmem hend =>
      have hr : s = r.startSeq ∧ r.Wf := hwf _ hmem
      simpa [ByteRange.wf_iff] using hr
  | span r hmem hbytes hend =>
      have hr : s = r.startSeq ∧ r.Wf := hwf _ hmem
      simpa [ByteRange.wf_iff] using hr
  | front r hmem hend | frontRest r hmem hend =>
      have hr : s = r.startSeq ∧ r.Wf := hwf _ hmem
      simp [ByteRange.wf_iff] at hr ⊢
      omega
  | reuse r c hmem hitype hempty hlo hhi hsize hnext =>
      have hr : s = r.startSeq ∧ r.Wf := hwf _ hmem
      simp [ByteRange.wf_iff] at hr ⊢
      omega
  | cutHead key r next hfree hmem hkey hlo =>
      have hr : key = r.startSeq ∧ r.Wf := hwf _ hmem
      simp [ByteRange.wf_iff] at hr ⊢
      omega
  | back key r hfree hmem hkey hlo hend | beyond key r hfree hmem hkey hlo hend =>
      have hr : key = r.startSeq ∧ r.Wf := hwf _ hmem
      simp [ByteRange.wf_iff] at hr ⊢
      omega
  | middle key r hfree hmem hkey hend | middleRest key r hfree hmem hkey hend =>
      have hr : key = r.startSeq ∧ r.Wf := hwf _ hmem
      simp [ByteRange.wf_iff] at hr ⊢
      omega

/-- A piece of sent data holds bytes. -/
theorem Piece.bytes {l : List Entry} {seg : DataSeg} {level s e : ℕ} {next : Option ℕ} {en : Entry}
    (h : Piece l .sent seg level s e next en) (hwf : WfEntries l) (hlt : s < e) :
    en.2.startSeq < en.2.endSeq := by
  cases h with
  | fresh => simpa using hlt
  | whole r hmem hend =>
      have hr : s = r.startSeq := (hwf _ hmem).1
      simp
      omega
  | front r hmem hend =>
      have hr : s = r.startSeq := (hwf _ hmem).1
      simp
      omega
  | frontRest r hmem hend => exact hend
  | span r hmem hbytes hend =>
      have hr : s = r.startSeq := (hwf _ hmem).1
      simp
      omega
  | reuse r c hmem hitype hempty hlo hhi =>
      have hr : s = r.startSeq := (hwf _ hmem).1
      simp
      omega
  | cutHead key r next hfree hmem hkey hlo =>
      have hr : key = r.startSeq := (hwf _ hmem).1
      simp
      omega
  | back key r hfree hmem hkey hlo hend => simpa using hlo
  | middle key r hfree hmem hkey hend => simpa using hlt
  | middleRest key r hfree hmem hkey hend => exact hend
  | beyond key r hfree hmem hkey hlo hend => simpa using hlo

/-! ## Whole insertions -/

section Loop

variable {itype : InsertType} {seg : DataSeg} {e : ℕ} {G : ℕ → Prop}
  {P : Option ℕ → Entry → Prop}

/-- Before a pass at `s`, the position has `G` and every entry has `P (some s)`; after the last pass
every entry has `P none`.  The entries before the first pass are those of `m`. -/
structure PieceKeeps (m : OrdMap ℕ ByteRange) (itype : InsertType) (seg : DataSeg) (e : ℕ)
    (G : ℕ → Prop) (P : Option ℕ → Entry → Prop) : Prop where
  next : ∀ (l : List Entry) s s', (∀ en ∈ l, P (some s) en) → s < s' → s' < e →
    (∃ o ∈ l, o.2.endSeq = s') ∨ (∃ o ∈ l, o.1 = s') → G s'
  old : ∀ s next en, P (some s) en → (∀ s', next = some s' → s < s' ∧ s' < e) → P next en
  piece : ∀ l s level next en, WfEntries l → (∀ o ∈ m.entries, ∃ d ∈ l, d.1 = o.1) → s < e →
    G s → (∀ en ∈ l, P (some s) en) → (∀ s', next = some s' → s < s' ∧ s' < e) →
    Piece l itype seg level s e next en → P next en

/-- For what an insertion does to the keys and the shape of the entries alone. -/
theorem pieceKeeps_true (m : OrdMap ℕ ByteRange) (itype : InsertType) (seg : DataSeg) (e : ℕ) :
    PieceKeeps m itype seg e (fun _ => True) fun _ _ => True :=
  ⟨fun _ _ _ _ _ _ _ => trivial, fun _ _ _ _ _ => trivial,
    fun _ _ _ _ _ _ _ _ _ _ _ _ => trivial⟩

/-- The rule for insertions on any map: what the pieces inherit, every entry has afterwards. -/
theorem insertLoop_forall (hitype : itype ≠ .sojourn) {m : OrdMap ℕ ByteRange}
    (hkeeps : PieceKeeps m itype seg e G P) {rm rm' : RangeManager} {s level fuel : ℕ} {ret : Bool}
    (hkeys : OrdMap.KeysKept m rm.ranges) (hlt : s < e) (hG : G s)
    (hsize : itype = .sent → e - s < 2 ^ 16 - 1) (hwf : WfEntries rm.ranges.entries)
    (hP : ∀ en ∈ rm.ranges.entries, P (some s) en)
    (h : insertLoop e itype seg fuel rm s level = .ok (rm', ret)) :
    OrdMap.KeysKept rm.ranges rm'.ranges ∧ WfEntries rm'.ranges.entries ∧
      ∀ en ∈ rm'.ranges.entries, P none en := by
  induction fuel generalizing rm s level with
  | zero => cases h
  | succ fuel ih =>
      have hrecv : itype = .recv → ∀ en ∈ rm.ranges.entries, en.1 = s → en.2.endSeq ≠ s := by
        rintro rfl ⟨key, r⟩ hen rfl hempty
        exact insertLoop_stuck (OrdMap.find?_eq_some_iff.mpr hen) hempty hlt h
      have hmade : ∀ {out}, rm.insertBody s e itype seg level = .ok out →
          MadeOf rm itype seg level s e out ∧ WfEntries out.rm.ranges.entries ∧
            ∀ en ∈ out.rm.ranges.entries, P out.next en := by
        intro out hbody
        have hmade := insertBody_madeOf hwf hlt hsize hitype hrecv hbody
        refine ⟨hmade, fun en hen => ?_, fun en hen => ?_⟩
        · rcases hmade.entries en hen with hen | hpiece
          · exact hwf en hen
          · exact hpiece.wf hwf hlt
        · rcases hmade.entries en hen with hen | hpiece
          · exact hkeeps.old s _ en (hP en hen) hmade.bounds
          · exact hkeeps.piece _ s level _ en hwf hkeys hlt hG hP hmade.bounds hpiece
      rw [insertLoop] at h
      split at h
      · cases h
      · next hbody =>
          obtain ⟨rfl, rfl⟩ := Prod.mk.inj (Except.ok.inj h)
          obtain ⟨hmade, hwf', hP'⟩ := hmade hbody
          exact ⟨hmade.keys, hwf', hP'⟩
      · next rm₁ s₁ hbody =>
          obtain ⟨hmade, hwf', hP'⟩ := hmade hbody
          obtain ⟨hlo, hhi⟩ := hmade.bounds s₁ rfl
          have hsize' : itype = .sent → e - s₁ < 2 ^ 16 - 1 := fun hi => by
            have := hsize hi
            omega
          have hG' := hkeeps.next _ s s₁ hP hlo hhi (hmade.stop s₁ rfl)
          obtain ⟨hkept, hrest⟩ := ih (hkeys.trans hmade.keys) hhi hG' hsize' hwf' hP' h
          exact ⟨hmade.keys.trans hkept, hrest⟩

/-- An insertion moves ranges only. -/
theorem insertLoop_onlyRanges (hitype : itype ≠ .sojourn) {rm rm' : RangeManager}
    {s level fuel : ℕ} {ret : Bool} (hwf : WfEntries rm.ranges.entries) (hlt : s < e)
    (hsize : itype = .sent → e - s < 2 ^ 16 - 1)
    (h : insertLoop e itype seg fuel rm s level = .ok (rm', ret)) : OnlyRanges rm rm' := by
  induction fuel generalizing rm s level with
  | zero => cases h
  | succ fuel ih =>
      have hrecv : itype = .recv → ∀ en ∈ rm.ranges.entries, en.1 = s → en.2.endSeq ≠ s := by
        rintro rfl ⟨key, r⟩ hen rfl hempty
        exact insertLoop_stuck (OrdMap.find?_eq_some_iff.mpr hen) hempty hlt h
      rw [insertLoop] at h
      split at h
      · cases h
      · next hbody =>
          obtain ⟨rfl, rfl⟩ := Prod.mk.inj (Except.ok.inj h)
          exact (insertBody_madeOf hwf hlt hsize hitype hrecv hbody).frame
      · next rm₁ s₁ hbody =>
          have hmade := insertBody_madeOf hwf hlt hsize hitype hrecv hbody
          have hwf₁ : WfEntries rm₁.ranges.entries := by
            intro en hen
            rcases hmade.entries en hen with hen | hpiece
            · exact hwf en hen
            · exact hpiece.wf hwf hlt
          obtain ⟨hlo, hhi⟩ := hmade.bounds s₁ rfl
          have hsize₁ : itype = .sent → e - s₁ < 2 ^ 16 - 1 := fun hi => by
            have := hsize hi
            omega
          exact hmade.frame.trans (ih hwf₁ hhi hsize₁ h)

end Loop

end RangeManager

end AnalyseTCP
