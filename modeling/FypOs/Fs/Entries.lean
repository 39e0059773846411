import FypOs.Fs.Content
import FypOs.Fs.Dir

/-!
# Fs — directory operations on files without holes

A directory is read entry by entry.  Where no block of it is missing, reading changes nothing, so
that the operations on directories do what their one `writei` does, and what the lookup does to the
table of in-memory inodes.
-/

namespace FypOs.Fs

open Lib Prog List UInt32

/-- The size of the file is within bounds, and none of its blocks is missing. -/
structure HoleFree (s : State) (n : Nat) : Prop where
  size : (s.dinode n).size.toNat ≤ MAXFILE * BSIZE
  mapped : ∀ bn, bn * BSIZE < (s.dinode n).size.toNat → fileBlock s.disk n bn ≠ 0

lemma HoleFree.byte {s : State} {n k : Nat} (h : HoleFree s n)
    (hk : k < (s.dinode n).size.toNat) : fileBlock s.disk n (k / BSIZE) ≠ 0 :=
  h.mapped _ (Nat.lt_of_le_of_lt (Nat.div_mul_le_self k BSIZE) hk)

lemma Unchanged.holeFree {s s' : State} {n : Nat} (h : Unchanged s s' n) (hh : HoleFree s n) :
    HoleFree s' n := by
  refine ⟨h.dinode ▸ hh.size, fun bn hbn => ?_⟩
  rw [h.block]
  exact hh.mapped bn (h.dinode ▸ hbn)

/-- The directory entry at `off` of file `n`. -/
def State.entry (s : State) (n off : Nat) : Block := cstr (s.bytes n off (off + DIRENTSZ))

lemma entry_apply (s : State) (n off : Nat) {j : Nat} (hj : j < DIRENTSZ) :
    s.entry n off j = s.byte n (off + j) := by
  have hlen : j < (s.bytes n off (off + DIRENTSZ)).length := by
    simp only [State.bytes, length_map, length_range']
    omega
  rw [State.entry, cstr, getD_eq_getElem _ _ hlen]
  simp [State.bytes]

section

variable {E : Stop → Prop} {s s₁ s' : State} {i : Fin NINODE} {off : Nat} {msg : String}

lemma readCount_dirent {size : UInt32} (hsize : size.toNat ≤ MAXFILE * BSIZE) (hoff : off < size.toNat) :
    (ofNat off).toNat = off ∧
      readCount size (ofNat off) (ofNat DIRENTSZ) = min DIRENTSZ (size.toNat - off) := by
  have hmax : MAXFILE * BSIZE = 274432 := by decide
  have hto : (ofNat off).toNat = off := toNat_ofNat_of_lt' (by
    show off < 4294967296
    omega)
  have hsz : (ofNat DIRENTSZ).toNat = DIRENTSZ := by decide
  refine ⟨hto, ?_⟩
  rw [readCount, hto, hsz, if_pos ⟨by omega, by simp only [DIRENTSZ]; omega⟩]

lemma readDirent_spec (h : Consistent s) (hi : Held s i) (hh : HoleFree s (s.itable i).inum) (hoff : off < (s.itable i).d.size.toNat)
    (hE : off + DIRENTSZ ≤ (s.itable i).d.size.toNat ∨ E (.panic msg)) :
    wp (readDirent i off msg) (fun de s' => s' = s ∧ de = s.entry (s.itable i).inum off ∧
      off + DIRENTSZ ≤ (s.itable i).d.size.toNat) E s := by
  have hd := (h.synced i hi).2
  have hsize := hh.size
  rw [← hd] at hsize
  obtain ⟨hto, hcount⟩ := readCount_dirent hsize hoff
  rw [readDirent, wp_bind]
  refine (readi_spec h hi (fun k hk => hh.byte (hd ▸ hk)) _ _).post fun r s' hs => ?_
  obtain ⟨rfl, hr⟩ := hs
  rcases hr with rfl | ⟨-, -, hj⟩
  · rw [hto, hcount]
    refine wp_ite (fun hne => ?_) fun heq => ?_
    · refine hE.resolve_left fun hle => hne ?_
      rw [Nat.min_eq_left (by omega)]
    · have hmin : min DIRENTSZ ((s'.itable i).d.size.toNat - off) = DIRENTSZ := by
        simpa using heq
      rw [hmin]
      exact ⟨rfl, rfl, by omega⟩
  · cases hj

/-- **A loop over the entries** of a directory from entry `m` on, with a body that goes on only if it
has changed nothing and the entry is one to skip. -/
lemma wp_entries {γ : Type} (h : Consistent s) (hi : Held s i) (hh : HoleFree s (s.itable i).inum)
    (hE : DIRENTSZ ∣ (s.itable i).d.size.toNat ∨ E (.panic msg)) {body : Nat → Block → FsM (Option γ)}
    (m : Nat) (Skip : Nat → Prop) {Q : Option γ → State → Prop}
    (hbody : ∀ k, m ≤ k → (k + 1) * DIRENTSZ ≤ (s.itable i).d.size.toNat → (∀ k', m ≤ k' → k' < k → Skip k') →
      wp (body (k * DIRENTSZ) (s.entry (s.itable i).inum (k * DIRENTSZ))) (fun r s' => match r with
        | some c => Q (some c) s'
        | none => s' = s ∧ Skip k) E s)
    (hend : (∀ k, m ≤ k → k * DIRENTSZ < (s.itable i).d.size.toNat → Skip k) → Q none s) :
    wp (Prog.search (fun off => readDirent i off msg >>= body off)
      ((dirOffsets (s.itable i).d.size).drop m)) Q E s := by
  have hlen : (dirOffsets (s.itable i).d.size).length =
      ((s.itable i).d.size.toNat + DIRENTSZ - 1) / DIRENTSZ := by
    rw [dirOffsets, length_map, length_range]
  have hD : DIRENTSZ = 16 := rfl
  refine wp_search (fun offs s' => s' = s ∧ ∃ k, m ≤ k ∧
    offs = (dirOffsets (s.itable i).d.size).drop k ∧ ∀ k', m ≤ k' → k' < k → Skip k')
    ⟨rfl, m, Nat.le_refl m, rfl, fun _ _ _ => by omega⟩ ?_ ?_
  · rintro off offs t ⟨rfl, k, hmk, hoffs, hskip⟩
    have hk : k < (dirOffsets (t.itable i).d.size).length := by
      by_contra hge
      rw [drop_eq_nil_of_le (Nat.not_lt.mp hge)] at hoffs
      cases hoffs
    rw [drop_eq_getElem_cons hk] at hoffs
    obtain ⟨rfl, rfl⟩ := List.cons.inj hoffs
    have hget : (dirOffsets (t.itable i).d.size)[k] = k * DIRENTSZ := by simp [dirOffsets]
    rw [hlen, hD] at hk
    rw [hget, wp_bind]
    refine (readDirent_spec h hi hh (by rw [hD]; omega) (hE.imp_left fun hdvd => ?_)).post
      fun de s' hs => ?_
    · rw [hD] at hdvd ⊢
      omega
    · obtain ⟨rfl, rfl, hle⟩ := hs
      refine (hbody k hmk (by rw [Nat.add_mul, Nat.one_mul]; exact hle) hskip).post fun r s₁ hr => ?_
      cases r with
      | some c => exact hr
      | none =>
        refine ⟨hr.1, k + 1, by omega, rfl, fun k' h1 h2 => ?_⟩
        rcases Nat.lt_or_eq_of_le (Nat.le_of_lt_succ h2) with hlt | rfl
        · exact hskip k' h1 hlt
        · exact hr.2
  · rintro t ⟨rfl, k, hmk, hoffs, hskip⟩
    refine hend fun k' h1 h2 => hskip k' h1 ?_
    have hk := drop_eq_nil_iff.mp hoffs.symm
    rw [hlen, hD] at hk
    rw [hD] at h2
    omega

/-- The entry is in use, under the name. -/
def Matches (name : Name) (de : Block) : Prop :=
  direntInum de ≠ 0 ∧ namecmp name (direntName de) = 0

/-- Entry `k` is the first one of the file with the name. -/
def FirstMatch (s : State) (n : Nat) (name : Name) (k : Nat) : Prop :=
  Matches name (s.entry n (k * DIRENTSZ)) ∧ ∀ k' < k, ¬ Matches name (s.entry n (k' * DIRENTSZ))

/-- No entry of the file has the name. -/
def NoMatch (s : State) (n : Nat) (name : Name) : Prop :=
  ∀ k, k * DIRENTSZ < (s.dinode n).size.toNat → ¬ Matches name (s.entry n (k * DIRENTSZ))

/-! ### Looking a name up -/

lemma dirlookup_finds (h : Consistent s) (hi : Held s i) (hh : HoleFree s (s.itable i).inum)
    (name : Name) (h1 : (s.itable i).d.type = T_DIR ∨ E (.panic "dirlookup not DIR"))
    (h2 : (s.itable i).d.type = T_DIR → DIRENTSZ ∣ (s.itable i).d.size.toNat ∨ E (.panic "dirlookup read"))
    (h3 : ∀ k, (k + 1) * DIRENTSZ ≤ (s.itable i).d.size.toNat → FirstMatch s (s.itable i).inum name k →
      Gettable s (direntInum (s.entry (s.itable i).inum (k * DIRENTSZ))) ∨ E (.panic "iget: no inodes")) :
    wp (dirlookup i name) (fun r s' => (s.itable i).d.type = T_DIR ∧
      ((r = none ∧ s' = s ∧ NoMatch s (s.itable i).inum name) ∨
      ∃ j k, r = some (j, k * DIRENTSZ) ∧ (k + 1) * DIRENTSZ ≤ (s.itable i).d.size.toNat ∧
        FirstMatch s (s.itable i).inum name k ∧
        Got s s' (direntInum (s.entry (s.itable i).inum (k * DIRENTSZ))) j)) E s := by
  rw [dirlookup, wp_bind, wp_inode]
  refine wp_ite (fun hne => h1.resolve_left hne) fun ht => ?_
  have ht : (s.itable i).d.type = T_DIR := not_not.mp ht
  refine wp_entries h hi hh (h2 ht) 0 (fun k => ¬ Matches name (s.entry (s.itable i).inum (k * DIRENTSZ)))
    (fun k _ hle hskip => ?_) fun hskip => ⟨ht, .inl ⟨rfl, rfl, fun k hk => ?_⟩⟩
  · refine wp_ite (fun hz => ⟨rfl, fun hm => hm.1 hz⟩) fun hne =>
      wp_ite (fun hname => ?_) fun hname => ⟨rfl, fun hm => hname hm.2⟩
    rw [wp_bind, h.dev i hi.1]
    have hfirst : FirstMatch s (s.itable i).inum name k :=
      ⟨⟨hne, hname⟩, fun k' hk' => hskip k' (Nat.zero_le _) hk'⟩
    exact (iget_gets h _ (h3 k hle hfirst)).post fun j s' hg => ⟨ht, .inr ⟨j, k, rfl, hle, hfirst, hg⟩⟩
  · rw [← (h.synced i hi).2] at hk
    exact hskip k (Nat.zero_le _) hk

/-- Nothing but unused entries of the table has changed. -/
structure Quiet (s s' : State) : Prop where
  sb : s'.sb = s.sb
  me : s'.me = s.me
  blocks : s'.blocks = s.blocks
  writes : s'.writes = s.writes
  kept : ∀ j, 0 < (s.itable j).ref → s'.itable j = s.itable j
  ref : ∀ j, (s'.itable j).ref = (s.itable j).ref
  lock : ∀ j, (s'.itable j).lock = (s.itable j).lock
  consistent : Consistent s'

lemma Quiet.refl (h : Consistent s) : Quiet s s :=
  ⟨rfl, rfl, rfl, rfl, fun _ _ => rfl, fun _ => rfl, fun _ => rfl, h⟩

/-- A reference got and dropped again: it was not the last one, or the entry was a new one. -/
lemma Got.put {inum : Nat} {j : Fin NINODE} (hg : Got s s₁ inum j) :
    wp (iput j) (fun _ s' => Quiet s s') E s₁ := by
  have hkept : (s₁.itable j).ref ≠ 1 ∨ (s₁.itable j).valid = false := by
    rcases hg.entry with ⟨hpos, e⟩ | ⟨-, -, hv⟩
    · rw [e]
      refine .inl fun e' => ?_
      dsimp only at e'
      omega
    · exact .inr hv
  refine (iput_kept hkept).post fun _ s' hs => ?_
  · subst hs
    have hc : Consistent (s₁.setInode j fun ip => { ip with ref := ip.ref - 1 }) :=
      hg.consistent.setInode rfl rfl rfl rfl fun _ => hg.ref_pos
    refine ⟨hg.sb, hg.me, hg.blocks, hg.writes, fun k hk => ?_, fun k => ?_, fun k => ?_, hc⟩
    · by_cases hkj : k = j
      · subst hkj
        rw [setInode_itable_self]
        rcases hg.entry with ⟨-, e⟩ | ⟨h0, -⟩
        · rw [e]
          simp only [Int.add_sub_cancel]
        · omega
      · rw [setInode_itable_of_ne hkj, hg.others k hkj]
    · by_cases hkj : k = j
      · subst hkj
        rw [setInode_itable_self]
        rcases hg.entry with ⟨-, e⟩ | ⟨h0, e, -⟩
        · rw [e]
          exact Int.add_sub_cancel _ _
        · dsimp only
          rw [e, h0]
          rfl
      · rw [setInode_itable_of_ne hkj, hg.others k hkj]
    · by_cases hkj : k = j
      · subst hkj
        rw [setInode_itable_self]
        exact hg.lock
      · rw [setInode_itable_of_ne hkj, hg.others k hkj]

/-! ### Writing an entry -/

/-- An entry of a directory is written as a whole or not at all. -/
structure EntryWritten (s s' : State) (i : Fin NINODE) (de : Block) (off tot : Nat) : Prop where
  written : Written s s' i (fun j => some (de j)) off DIRENTSZ tot 0
  whole : tot = DIRENTSZ ∨ tot = 0 ∧ fileBlock s.disk (s.itable i).inum (off / BSIZE) = 0
  aligned : off % DIRENTSZ = 0
  le : off ≤ (s.itable i).d.size.toNat
  max : off + DIRENTSZ ≤ MAXFILE * BSIZE

lemma writeDirent_spec (h : Consistent s) (hi : Held s i) (hmod : off % DIRENTSZ = 0)
    (hoff : off < 2 ^ 32) (de : Block) :
    wp (writeDirent i off de) (fun r s' =>
      (r = -1 ∧ s' = s ∧ ¬ (off ≤ (s.itable i).d.size.toNat ∧ off + DIRENTSZ ≤ MAXFILE * BSIZE)) ∨
      ∃ tot : Nat, r = tot ∧ EntryWritten s s' i de off tot) E s := by
  have hto : (ofNat off).toNat = off := toNat_ofNat_of_lt' hoff
  have hsz : (ofNat DIRENTSZ).toNat = DIRENTSZ := by decide
  refine (writei_spec h hi _ _ _).post fun r s' hs => ?_
  simp only [Accepted, hto, hsz] at hs
  rcases hs with hno | ⟨hacc, tot, p, hr, hw⟩
  · exact .inl hno
  · refine .inr ⟨tot, hr, ?_⟩
    -- the entry is in one block, and a copy from kernel memory does not fail
    have hp : p = 0 := by
      rcases hw.reason with h1 | ⟨-, h1⟩ | h1
      · have := hw.le
        omega
      · cases h1
      · exact h1.1
    subst hp
    refine ⟨hw, ?_, hmod, hacc.1, hacc.2⟩
    have haligned := hw.aligned
    have hle := hw.le
    rcases hw.reason with h1 | ⟨-, h1⟩ | ⟨-, -, h1⟩
    · exact .inl h1
    · cases h1
    · have hcases : tot = DIRENTSZ ∨ tot = 0 := by
        simp only [DIRENTSZ, BSIZE] at hmod haligned hle ⊢
        omega
      refine hcases.imp_right fun h0 => ⟨h0, ?_⟩
      rwa [h0, Nat.add_zero] at h1

variable (h : Consistent s) (hi : Held s i) (hh : HoleFree s (s.itable i).inum)

include h hi hh

/-- An entry that is there can be written over: its block is not missing. -/
lemma writeDirent_over (hmod : off % DIRENTSZ = 0) (hle : off + DIRENTSZ ≤ (s.itable i).d.size.toNat)
    (de : Block) :
    wp (writeDirent i off de) (fun r s' => r = DIRENTSZ ∧ EntryWritten s s' i de off DIRENTSZ)
      E s := by
  have hmax : MAXFILE * BSIZE = 274432 := by decide
  have hd := (h.synced i hi).2
  have hsize := hh.size
  rw [← hd] at hsize
  refine (writeDirent_spec h hi hmod (by omega) de).post fun r s₁ hs => ?_
  rcases hs with ⟨-, -, hno⟩ | ⟨tot, rfl, hw⟩
  · exact absurd ⟨by omega, by omega⟩ hno
  · obtain rfl : tot = DIRENTSZ := by
      refine hw.whole.resolve_right fun hzero => hh.byte ?_ hzero.2
      rw [← hd]
      simp only [DIRENTSZ] at hle
      omega
    exact ⟨rfl, hw⟩

/-! ### Adding and removing an entry -/

/-- Entry `k` of the file is not in use, or the one behind the last. -/
def Vacant (s : State) (n k : Nat) : Prop :=
  (k + 1) * DIRENTSZ ≤ (s.dinode n).size.toNat ∧ direntInum (s.entry n (k * DIRENTSZ)) = 0 ∨
    (s.dinode n).size.toNat ≤ k * DIRENTSZ

/-- The entry `dirlink` takes: the ones before it are in use. -/
structure FirstVacant (s : State) (n k : Nat) : Prop where
  vacant : Vacant s n k
  before : ∀ k' < k, k' * DIRENTSZ < (s.dinode n).size.toNat ∧ direntInum (s.entry n (k' * DIRENTSZ)) ≠ 0

lemma dirlinkSlot_spec (hE : DIRENTSZ ∣ (s.itable i).d.size.toNat ∨ E (.panic "dirlink read")) :
    wp (dirlinkSlot i) (fun off s' => s' = s ∧ off < 2 ^ 32 ∧
      ∃ k, off = k * DIRENTSZ ∧ FirstVacant s (s.itable i).inum k) E s := by
  have hmax : MAXFILE * BSIZE = 274432 := by decide
  have hD : DIRENTSZ = 16 := rfl
  have hd := (h.synced i hi).2
  have hsize := hh.size
  rw [← hd] at hsize
  rw [dirlinkSlot, wp_bind, wp_inode, wp_bind]
  refine wp_entries h hi hh hE 0 (fun k => direntInum (s.entry (s.itable i).inum (k * DIRENTSZ)) ≠ 0)
    (fun k _ hle hskip => ?_) fun hskip => ⟨rfl, ?_, _, rfl, .inr ?_, fun k' hk' => ?_⟩
  · refine wp_ite (fun hz => ⟨rfl, ?_, k, rfl, .inl ⟨?_, hz⟩, fun k' hk' => ⟨?_, ?_⟩⟩) fun hne => ⟨rfl, hne⟩
    · simp only [Option.getD_some]
      rw [hD] at hle ⊢
      omega
    · rw [← hd]
      exact hle
    · rw [← hd]
      rw [hD] at hle ⊢
      omega
    · exact hskip k' (Nat.zero_le _) hk'
  · simp only [Option.getD_none, dirOffsets, length_map, length_range, hD]
    omega
  · rw [← hd, dirOffsets, length_map, length_range, hD]
    omega
  · have hlt : k' * DIRENTSZ < (s.itable i).d.size.toNat := by
      simp only [dirOffsets, length_map, length_range, hD] at hk' ⊢
      omega
    exact ⟨hd ▸ hlt, hskip k' (Nat.zero_le _) hlt⟩

section

variable (name : Name) (inum : Nat) (h1 : (s.itable i).d.type = T_DIR ∨ E (.panic "dirlookup not DIR"))
  (h2 : (s.itable i).d.type = T_DIR → DIRENTSZ ∣ (s.itable i).d.size.toNat ∨
    E (.panic "dirlookup read") ∧ E (.panic "dirlink read"))

include h1 h2

/-- **The rule for `dirlink`**: the name is there, or an entry is written. -/
lemma wp_dirlink {Q : Int → State → Prop}
    (h3 : ∀ k, (k + 1) * DIRENTSZ ≤ (s.itable i).d.size.toNat → FirstMatch s (s.itable i).inum name k →
      Gettable s (direntInum (s.entry (s.itable i).inum (k * DIRENTSZ))) ∨ E (.panic "iget: no inodes"))
    (hfound : (s.itable i).d.type = T_DIR → ∀ k s', (k + 1) * DIRENTSZ ≤ (s.itable i).d.size.toNat →
      FirstMatch s (s.itable i).inum name k → Quiet s s' → Q (-1) s')
    (hwrite : (s.itable i).d.type = T_DIR → NoMatch s (s.itable i).inum name → ∀ k, k * DIRENTSZ < 2 ^ 32 →
      FirstVacant s (s.itable i).inum k →
      wp (writeDirent i (k * DIRENTSZ) (mkDirent name inum))
        (fun r s' => Q (if r ≠ DIRENTSZ then -1 else 0) s') E s) :
    wp (dirlink i name inum) Q E s := by
  rw [dirlink, wp_bind]
  refine (dirlookup_finds h hi hh name h1 (fun ht => (h2 ht).imp_right And.left) h3).post
    fun r s₁ hr => ?_
  obtain ⟨ht, hr⟩ := hr
  rcases hr with ⟨rfl, rfl, hno⟩ | ⟨j, k, rfl, hle, hfirst, hg⟩
  · dsimp only
    rw [wp_bind]
    refine (dirlinkSlot_spec h hi hh ((h2 ht).imp_right And.right)).post fun off s' hs => ?_
    obtain ⟨rfl, hlt, k, rfl, hk⟩ := hs
    rw [wp_bind]
    refine (hwrite ht hno k hlt hk).post fun r s₁ hq => ?_
    refine wp_ite (fun hne => ?_) fun heq => ?_
    · rwa [if_pos hne] at hq
    · rwa [if_neg heq] at hq
  · dsimp only
    rw [wp_bind]
    exact hg.put.post fun _ s' hq => hfound ht k s' hle hfirst hq

lemma dirlink_spec (h3 : E (.panic "iget: no inodes")) :
    wp (dirlink i name inum) (fun r s' => (s.itable i).d.type = T_DIR ∧ ((r = -1 ∧ Quiet s s') ∨
      NoMatch s (s.itable i).inum name ∧ ∃ k tot : Nat, Vacant s (s.itable i).inum k ∧
        EntryWritten s s' i (mkDirent name inum) (k * DIRENTSZ) tot ∧
        r = if tot = DIRENTSZ then 0 else -1)) E s := by
  refine wp_dirlink h hi hh name inum h1 h2 (fun _ _ _ => .inr h3) (fun ht k s' _ _ hq => ⟨ht, .inl ⟨rfl, hq⟩⟩)
    fun ht hno k hlt hk => ?_
  refine (writeDirent_spec h hi (Nat.mul_mod_left ..) hlt _).post fun r s₁ hs => ?_
  rcases hs with ⟨rfl, rfl, -⟩ | ⟨tot, rfl, hw⟩
  · exact ⟨ht, .inl ⟨rfl, .refl h⟩⟩
  · refine ⟨ht, .inr ⟨hno, k, tot, hk.vacant, hw, ?_⟩⟩
    by_cases htot : tot = DIRENTSZ
    · rw [if_pos htot, htot]
      rfl
    · rw [if_neg htot, if_pos fun e => htot (by simpa using e)]

end

/-- The comparison of `dirunlink`, with its arguments the other way round. -/
def Removable (name : Name) (de : Block) : Prop :=
  strncmp (direntName de) name DIRSIZ = 0 ∧ direntInum de ≠ 0

lemma dirunlink_spec (name : Name) (hE : DIRENTSZ ∣ (s.itable i).d.size.toNat ∨ E (.panic "dirunlink read")) :
    wp (dirunlink i name) (fun r s' =>
      (r = -1 ∧ s' = s ∧ ∀ k, k * DIRENTSZ < (s.itable i).d.size.toNat →
        ¬ Removable name (s.entry (s.itable i).inum (k * DIRENTSZ))) ∨
      ∃ k : Nat, r = 0 ∧ (k + 1) * DIRENTSZ ≤ (s.itable i).d.size.toNat ∧
        Removable name (s.entry (s.itable i).inum (k * DIRENTSZ)) ∧
        (∀ k' < k, ¬ Removable name (s.entry (s.itable i).inum (k' * DIRENTSZ))) ∧
        EntryWritten s s' i (putLE 2 0 0 (s.entry (s.itable i).inum (k * DIRENTSZ))) (k * DIRENTSZ)
          DIRENTSZ) E s := by
  rw [dirunlink, wp_bind, wp_inode, wp_bind]
  refine wp_entries h hi hh hE 0 (fun k => ¬ Removable name (s.entry (s.itable i).inum (k * DIRENTSZ)))
    (fun k _ hle hskip => ?_) fun hskip => .inl ⟨rfl, rfl, fun k hk => hskip k (Nat.zero_le _) hk⟩
  refine wp_ite (fun hm => ?_) fun hm => ⟨rfl, hm⟩
  rw [wp_bind]
  refine (writeDirent_over h hi hh (Nat.mul_mod_left ..) (by rw [← Nat.succ_mul]; exact hle) _).post
    fun r s₁ hs => ?_
  obtain ⟨rfl, hw⟩ := hs
  exact wp_ite (fun hne => absurd rfl hne) fun _ =>
    .inr ⟨k, rfl, hle, hm, fun k' hk' => hskip k' (Nat.zero_le _) hk', hw⟩

lemma isdirempty_spec (hE : DIRENTSZ ∣ (s.itable i).d.size.toNat ∨ E (.panic "isdirempty: readi")) :
    wp (isdirempty i) (fun r s' => s' = s ∧ (r = true ↔ ∀ k, 2 ≤ k → k * DIRENTSZ < (s.itable i).d.size.toNat →
        direntInum (s.entry (s.itable i).inum (k * DIRENTSZ)) = 0)) E s := by
  rw [isdirempty, wp_bind, wp_inode, wp_bind]
  refine wp_entries h hi hh hE 2 (fun k => direntInum (s.entry (s.itable i).inum (k * DIRENTSZ)) = 0)
    (fun k h2 hle _ => ?_) fun hskip => ⟨rfl, fun _ => hskip, fun _ => rfl⟩
  refine wp_ite (fun hne => ⟨rfl, nofun, fun hall => absurd (hall k h2 ?_) hne⟩) fun hz =>
    ⟨rfl, not_not.mp hz⟩
  have hD : DIRENTSZ = 16 := rfl
  rw [hD] at hle ⊢
  omega

end

end FypOs.Fs
