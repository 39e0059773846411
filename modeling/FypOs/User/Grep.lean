import Mathlib.Computability.Language

/-!
# User — `grep`

The matcher of `user/grep.c`, and the loop that takes a file into a buffer and prints the lines that match.

* `grep_lines`: the lines that match are printed, once and in their order, if none is longer than the buffer.
-/

namespace FypOs.User

open List Computability

/-! ### The matcher -/

def caret : UInt8 := 94

def dollar : UInt8 := 36

def star : UInt8 := 42

def dot : UInt8 := 46

mutual

/-- `matchhere`; the strings end with their lists. -/
def matchhere : List UInt8 → List UInt8 → Bool
  | [], _ => true
  | c :: re, text =>
    if re.head? = some star then matchstar c re.tail text
    else if c = dollar ∧ re = [] then text.isEmpty
    else
      match text with
      | [] => false
      | t :: text => if c = dot ∨ c = t then matchhere re text else false
termination_by re text => (re.length, text.length, 0)

def matchstar (c : UInt8) (re text : List UInt8) : Bool :=
  if matchhere re text then true
  else
    match text with
    | [] => false
    | t :: text => if t = c ∨ c = dot then matchstar c re text else false
termination_by (re.length, text.length, 1)

end

/-- The loop of `match` over the places where a match may begin. -/
def matchLoop (re : List UInt8) : List UInt8 → Bool
  | [] => matchhere re []
  | t :: text => if matchhere re (t :: text) then true else matchLoop re text

/-- `match`. -/
def regMatch (re text : List UInt8) : Bool :=
  if re.head? = some caret then matchhere re.tail text else matchLoop re text

/-! ### What a pattern means -/

/-- The byte `c`, or any byte for a dot. -/
def atom (c : UInt8) : Language UInt8 := {w | ∃ b, w = [b] ∧ (c = dot ∨ c = b)}

/-- The language of a pattern, read from left to right, and whether the text has to end behind it. -/
noncomputable def meaning : List UInt8 → Language UInt8 × Bool
  | [] => (1, false)
  | c :: re =>
    if re.head? = some star then ((atom c)∗ * (meaning re.tail).1, (meaning re.tail).2)
    else if c = dollar ∧ re = [] then (1, true)
    else (atom c * (meaning re).1, (meaning re).2)
termination_by re => re.length

/-- A beginning of the text, or all of it, is in the language. -/
def Begins (m : Language UInt8 × Bool) (text : List UInt8) : Prop :=
  ∃ w ∈ m.1, ∃ rest, text = w ++ rest ∧ (m.2 = true → rest = [])

section

variable {L : Language UInt8} {e : Bool} {c : UInt8} {re text : List UInt8}

lemma begins_atom : Begins (atom c * L, e) text ↔ ∃ t rest, text = t :: rest ∧ (c = dot ∨ c = t) ∧ Begins (L, e) rest := by
  constructor
  · rintro ⟨w, ⟨_, ⟨b, rfl, hb⟩, v, hv, rfl⟩, rest, rfl, hend⟩
    exact ⟨b, v ++ rest, rfl, hb, v, hv, rest, rfl, hend⟩
  · rintro ⟨t, _, rfl, ht, v, hv, rest, rfl, hend⟩
    exact ⟨t :: v, ⟨[t], ⟨t, rfl, ht⟩, v, hv, rfl⟩, rest, rfl, hend⟩

/-- A starred item is left out, or stands for one more byte. -/
lemma begins_star : Begins ((atom c)∗ * L, e) text ↔
    Begins (L, e) text ∨ ∃ t rest, text = t :: rest ∧ (c = dot ∨ c = t) ∧ Begins ((atom c)∗ * L, e) rest := by
  have hstar : (atom c)∗ * L = L + atom c * ((atom c)∗ * L) := by
    rw [← mul_assoc, ← one_add_mul, Language.one_add_self_mul_kstar_eq_kstar]
  rw [← begins_atom]
  constructor
  · rintro ⟨w, hw, hrest⟩
    rw [hstar] at hw
    exact hw.imp (fun h => ⟨w, h, hrest⟩) fun h => ⟨w, h, hrest⟩
  · rintro (⟨w, hw, hrest⟩ | ⟨w, hw, hrest⟩)
    · exact ⟨w, hstar ▸ Or.inl hw, hrest⟩
    · exact ⟨w, hstar ▸ Or.inr hw, hrest⟩

/-- `matchstar` tries every number of repetitions. -/
lemma matchstar_iff (h : ∀ text, matchhere re text = true ↔ Begins (L, e) text) :
    matchstar c re text = true ↔ Begins ((atom c)∗ * L, e) text := by
  induction text with
  | nil =>
    rw [matchstar, begins_star, ← h]
    simp
  | cons t text ih =>
    have hmore : (∃ t' rest, t :: text = t' :: rest ∧ (c = dot ∨ c = t') ∧ Begins ((atom c)∗ * L, e) rest) ↔
        (t = c ∨ c = dot) ∧ matchstar c re text = true := by
      rw [ih, or_comm, eq_comm (a := t)]
      exact ⟨fun ⟨_, _, he, hb⟩ => (by cases he; exact hb), fun hb => ⟨t, text, rfl, hb⟩⟩
    rw [matchstar, begins_star, ← h, hmore]
    by_cases hm : matchhere re (t :: text) = true
    · simp only [hm, if_true, true_or]
    · rw [if_neg hm, iff_false_intro hm, false_or]
      split_ifs with ht
      · exact (and_iff_right ht).symm
      · exact iff_of_false id fun hb => ht hb.1

/-- **`matchhere`** decides whether the text begins as the pattern says. -/
lemma matchhere_iff (re text : List UInt8) : matchhere re text = true ↔ Begins (meaning re) text := by
  match re with
  | [] =>
    rw [matchhere, meaning]
    exact iff_of_true rfl ⟨[], Language.nil_mem_one, text, rfl, nofun⟩
  | c :: re =>
    rw [matchhere.eq_def, meaning]
    dsimp only
    by_cases hs : re.head? = some star
    · rw [if_pos hs, if_pos hs]
      exact matchstar_iff fun text => matchhere_iff re.tail text
    rw [if_neg hs, if_neg hs]
    by_cases hd : c = dollar ∧ re = []
    · rw [if_pos hd, if_pos hd, List.isEmpty_iff]
      constructor
      · rintro rfl
        exact ⟨[], Language.nil_mem_one, [], rfl, fun _ => rfl⟩
      · rintro ⟨w, hw, rest, rfl, hend⟩
        rw [(Language.mem_one w).mp hw, hend rfl]
        rfl
    rw [if_neg hd, if_neg hd, begins_atom]
    cases text with
    | nil => exact iff_of_false (by simp) (by rintro ⟨_, _, he, -⟩; cases he)
    | cons t text =>
      have ih := matchhere_iff re text
      constructor
      · intro hm
        dsimp only at hm
        split_ifs at hm with hc
        exact ⟨t, text, rfl, hc, ih.mp hm⟩
      · rintro ⟨_, _, he, hc, hb⟩
        cases he
        dsimp only
        rw [if_pos hc]
        exact ih.mpr hb
termination_by re.length
decreasing_by
  · simp only [length_cons, length_tail]
    omega
  · simp only [length_cons]
    omega

/-- **`match`** decides its patterns: a match begins with the text if the pattern begins with `^`, or somewhere in it. -/
theorem regMatch_iff (re text : List UInt8) : regMatch re text = true ↔
    if re.head? = some caret then Begins (meaning re.tail) text
    else ∃ skip rest, text = skip ++ rest ∧ Begins (meaning re) rest := by
  rw [regMatch]
  split_ifs
  · exact matchhere_iff re.tail text
  induction text with
  | nil =>
    rw [matchLoop, matchhere_iff]
    constructor
    · exact fun hb => ⟨[], [], rfl, hb⟩
    · rintro ⟨skip, rest, he, hb⟩
      exact (append_eq_nil_iff.mp he.symm).2 ▸ hb
  | cons t text ih =>
    rw [matchLoop]
    by_cases hm : matchhere re (t :: text) = true
    · rw [if_pos hm]
      exact iff_of_true rfl ⟨[], _, rfl, (matchhere_iff ..).mp hm⟩
    · rw [if_neg hm, ih]
      constructor
      · rintro ⟨skip, rest, rfl, hb⟩
        exact ⟨t :: skip, rest, rfl, hb⟩
      · rintro ⟨skip, rest, he, hb⟩
        cases skip with
        | nil => exact absurd ((matchhere_iff ..).mpr (he ▸ hb)) hm
        | cons s skip =>
          cases he
          exact ⟨skip, rest, rfl, hb⟩

end

/-! ### The lines of a file -/

def newline : UInt8 := 10

/-- `sizeof(buf)`. -/
def BUFSIZE : Nat := 1024

/-- A store into `buf`, unless it is outside. -/
def store (buf : List UInt8) (i : Nat) (c : UInt8) : Option (List UInt8) :=
  if i < BUFSIZE then some (buf.set i c) else none

/-- `strchr(p, c)`: how far from `p` the byte is, if no NUL comes before it. -/
def strchr (c : UInt8) : List UInt8 → Option Nat
  | [] => none
  | b :: s => if b = 0 then none else if b = c then some 0 else (strchr c s).map (· + 1)

/-- The string at the beginning of a piece of memory. -/
def cString (s : List UInt8) : List UInt8 := s.takeWhile (· ≠ 0)

/-- The inner loop of `grep`, with `p` in `buf`: what it writes, and both at its end.  A turn takes a line, so that there
are no more than `turns`, the bytes of the buffer. -/
def lineLoop (pattern : List UInt8) : Nat → List UInt8 → Nat → Option (List UInt8 × List UInt8 × Nat)
  | 0, _, _ => none
  | turns + 1, buf, p =>
    match strchr newline (buf.drop p) with
    | none => some ([], buf, p)
    | some k => do
      let buf ← store buf (p + k) 0
      if regMatch pattern (cString (buf.drop p)) then do
        let buf ← store buf (p + k) newline
        let r ← lineLoop pattern turns buf (p + k + 1)
        some ((buf.drop p).take (k + 1) ++ r.1, r.2)
      else lineLoop pattern turns buf (p + k + 1)

/-- `read` stores the bytes `x` at `buf + m`. -/
def readInto (buf : List UInt8) (m : Nat) (x : List UInt8) : Option (List UInt8) :=
  if m + x.length ≤ BUFSIZE then some (buf.take m ++ x ++ buf.drop (m + x.length)) else none

/-- `memmove(buf, p, m)`. -/
def moveDown (buf : List UInt8) (p m : Nat) : Option (List UInt8) :=
  if p + m ≤ BUFSIZE then some ((buf.drop p).take m ++ buf.drop m) else none

/-- The loop of `grep`, with `m` bytes in `buf`: what it writes.  The `i`th `read` returns up to `size i + 1` bytes, and
no more than it is asked for. -/
def grepLoop (pattern : List UInt8) (size : Nat → Nat) (i : Nat) (stream buf : List UInt8) (m : Nat) :
    Option (List UInt8) :=
  let n := min (size i + 1) (min (BUFSIZE - m - 1) stream.length)
  if 0 < n then do
    let buf ← readInto buf m (stream.take n)
    let buf ← store buf (m + n) 0
    let (out, buf, p) ← lineLoop pattern (BUFSIZE + 1) buf 0
    let buf ← if 0 < m + n then moveDown buf p (m + n - p) else some buf
    let rest ← grepLoop pattern size (i + 1) (stream.drop n) buf (m + n - p)
    some (out ++ rest)
  else some []
termination_by stream.length
decreasing_by
  rw [length_drop]
  omega

/-- The lines that end with a newline and match, in order. -/
def wanted (pattern stream : List UInt8) : List UInt8 :=
  ((stream.splitOn newline).dropLast.filter (regMatch pattern)).flatMap (· ++ [newline])

/-- No line that ends with a newline has more than 1023 bytes with it. -/
def Short (stream : List UInt8) : Prop :=
  ∀ skip line rest, stream = skip ++ (line ++ newline :: rest) → newline ∉ line → line.length + 1 < BUFSIZE

/-- `grep` of the bytes that `read` returns. -/
def grep (pattern : List UInt8) (size : Nat → Nat) (stream buf : List UInt8) : Option (List UInt8) :=
  grepLoop pattern size 0 stream buf 0

section

variable {pattern line tail text s junk buf : List UInt8} {b c : UInt8} {p : Nat}

lemma ne_newline (h : newline ∉ s) : ∀ x ∈ s, (x == newline) = false := fun _ hx =>
  beq_eq_false_iff_ne.mpr fun e => h (e ▸ hx)

lemma wanted_tail (h : newline ∉ s) : wanted pattern s = [] := by
  rw [wanted, splitOn, splitOnP_eq_singleton (ne_newline h)]
  rfl

lemma wanted_line (h : newline ∉ line) : wanted pattern (line ++ newline :: s) =
    (if regMatch pattern line then line ++ [newline] else []) ++ wanted pattern s := by
  rw [wanted, splitOn, splitOnP_append_cons_of_forall_mem (ne_newline h) _ (beq_self_eq_true newline),
    dropLast_cons_of_ne_nil (splitOnP_ne_nil _ _), filter_cons]
  split_ifs <;> rfl

lemma strchr_append (h0 : 0 ∉ line) (hc : c ∉ line) : strchr c (line ++ s) = (strchr c s).map (· + line.length) := by
  induction line with
  | nil => simp
  | cons b line ih =>
    rw [mem_cons, not_or] at h0 hc
    rw [cons_append, strchr, if_neg (Ne.symm h0.1), if_neg (Ne.symm hc.1), ih h0.2 hc.2, Option.map_map]
    rfl

lemma cString_append (h0 : 0 ∉ line) : cString (line ++ 0 :: s) = line := by
  rw [cString, takeWhile_append_of_pos fun x hx => ?_]
  · simp
  · simpa using fun e : x = 0 => h0 (e ▸ hx)

lemma drop_store (h : buf.drop p = line ++ b :: s) : (buf.set (p + line.length) c).drop p = line ++ c :: s := by
  rw [List.drop_set, if_neg (by omega), Nat.add_sub_cancel_left, h, set_append_right _ _ le_rfl, Nat.sub_self]
  rfl

/-- **The lines in the buffer** are handled one after the other, up to the unfinished one. -/
lemma lineLoop_eq (pattern : List UInt8) (turns : Nat) (h0 : 0 ∉ text)
    (hbuf : buf.drop p = text ++ 0 :: junk) (hlen : buf.length = BUFSIZE) (hturns : text.length < turns) :
    ∃ buf' done tail, text = done ++ tail ∧ newline ∉ tail ∧
      lineLoop pattern turns buf p = some (wanted pattern text, buf', p + done.length) ∧ buf'.length = BUFSIZE ∧
      buf'.drop (p + done.length) = tail ++ 0 :: junk ∧
      ∀ s, wanted pattern (text ++ s) = wanted pattern text ++ wanted pattern (tail ++ s) := by
  induction turns generalizing text buf p with
  | zero => exact absurd hturns (Nat.not_lt_zero _)
  | succ turns ih =>
    by_cases hn : newline ∈ text
    · obtain ⟨line, text, rfl, hline⟩ := eq_append_cons_of_mem hn
      have h0' : 0 ∉ line ∧ 0 ∉ text := by
        simp only [mem_append, mem_cons, not_or] at h0
        exact ⟨h0.1, h0.2.2⟩
      rw [append_assoc, cons_append] at hbuf
      have hq : p + line.length < BUFSIZE := by
        have := congrArg length hbuf
        simp only [length_drop, length_append, length_cons] at this
        omega
      have hfind : strchr newline (buf.drop p) = some line.length := by
        rw [hbuf, strchr_append h0'.1 hline]
        simp [strchr, newline]
      -- whatever is stored at the newline, the next line begins behind it
      have hnext (c : UInt8) : ((buf.set (p + line.length) c).drop (p + line.length + 1)) = text ++ 0 :: junk := by
        rw [Nat.add_assoc, ← drop_drop, drop_store hbuf, drop_append]
        simp
      have hturns : text.length < turns := by
        simp only [length_append, length_cons] at hturns
        omega
      have hstr : cString ((buf.set (p + line.length) 0).drop p) = line := by
        rw [drop_store hbuf, cString_append h0'.1]
      have hgo (c : UInt8) := ih h0'.2 (hnext c) (by rw [length_set, hlen]) hturns
      obtain ⟨buf', done, tail, hsplit, htail, hloop, hlen', hdrop, hmore⟩ :=
        hgo (if regMatch pattern line then newline else 0)
      have hend : p + (line ++ newline :: done).length = p + line.length + 1 + done.length := by
        rw [length_append, length_cons]
        omega
      refine ⟨buf', line ++ newline :: done, tail, by rw [hsplit, append_assoc, cons_append], htail, ?_, hlen', ?_, ?_⟩
      · have htake : (line ++ newline :: (text ++ 0 :: junk)).take (line.length + 1) = line ++ [newline] := by
          rw [take_append, take_of_length_le (by omega), Nat.add_sub_cancel_left]
          rfl
        rw [lineLoop, hfind, wanted_line hline, hend]
        simp only [store, hq, if_true, Option.bind_eq_bind, Option.bind_some, hstr, set_set]
        split_ifs at hloop ⊢
        · rw [hloop, Option.bind_some, drop_store hbuf, htake]
        · exact hloop
      · rw [hend, hdrop]
      · intro s
        rw [append_assoc, cons_append, wanted_line hline, wanted_line hline, hmore, append_assoc]
    · refine ⟨buf, [], text, rfl, hn, ?_, hlen, hbuf, fun s => ?_⟩
      · rw [lineLoop, hbuf, strchr_append h0 hn, wanted_tail hn]
        rfl
      · rw [wanted_tail hn, nil_append]

lemma Short.suffix (h : Short (line ++ s)) : Short s := fun skip l rest hs hl =>
  h (line ++ skip) l rest (by rw [hs, append_assoc]) hl

/-- A buffer that is full without a newline holds the end of the stream, since no line is as long. -/
lemma not_mem_of_full (hn : newline ∉ tail) (hlen : BUFSIZE ≤ tail.length + 1) (hs : Short (tail ++ s)) :
    newline ∉ tail ++ s := by
  intro hmem
  obtain ⟨line, rest, he, hline⟩ := eq_append_cons_of_mem hmem
  have hlt := hs [] line rest he hline
  rcases append_eq_append_iff.mp he with ⟨as, rfl, -⟩ | ⟨bs, rfl, hbs⟩
  · rw [length_append] at hlt
    omega
  · cases bs with
    | nil => 
      rw [append_nil] at hlen
      omega
    | cons b bs =>
      cases hbs
      exact hn (mem_append_right _ mem_cons_self)

lemma grepLoop_eq {size : Nat → Nat} {i m : Nat} {stream : List UInt8} (hlen : buf.length = BUFSIZE)
    (htail : buf.take m = tail) (hm : tail.length = m) (hroom : m < BUFSIZE) (hn : newline ∉ tail)
    (h0 : 0 ∉ tail ++ stream) (hs : Short (tail ++ stream)) :
    grepLoop pattern size i stream buf m = some (wanted pattern (tail ++ stream)) := by
  induction hk : stream.length using Nat.strong_induction_on generalizing i m stream buf tail with
  | _ k ih =>
  rw [grepLoop]
  obtain ⟨n, hndef⟩ : ∃ n, n = min (size i + 1) (min (BUFSIZE - m - 1) stream.length) := ⟨_, rfl⟩
  rw [← hndef]
  by_cases hpos : 0 < n
  · have hmn : m + n < BUFSIZE := by omega
    have hx : (stream.take n).length = n := by
      rw [length_take]
      omega
    obtain ⟨b, junk, hjunk⟩ : ∃ b junk, buf.drop (m + n) = b :: junk :=
      exists_cons_of_length_pos (by rw [length_drop]; omega)
    have htext : (tail ++ stream.take n).length = m + n := by rw [length_append, hm, hx]
    have hread : readInto buf m (stream.take n) = some (tail ++ stream.take n ++ b :: junk) := by
      rw [readInto, if_pos (by omega), htail, hx, hjunk]
    have hlen' : (tail ++ stream.take n ++ b :: junk).length = BUFSIZE := by
      have := congrArg length hjunk
      rw [length_drop] at this
      rw [length_append, htext]
      omega
    have hstream : tail ++ stream = tail ++ stream.take n ++ stream.drop n := by rw [append_assoc, take_append_drop]
    rw [hstream] at h0 hs ⊢
    have hset := drop_store (p := 0) (c := 0) (drop_zero (l := tail ++ stream.take n ++ b :: junk))
    rw [Nat.zero_add, htext] at hset
    obtain ⟨buf', done, tail', hsplit, hn', hloop, hlen'', hdrop, hmore⟩ :=
      lineLoop_eq pattern (BUFSIZE + 1) (fun h => h0 (mem_append_left _ h)) hset
        (by rw [length_set, hlen']) (by omega)
    have hle : 0 + done.length + tail'.length = m + n := by
      rw [hsplit, length_append] at htext
      omega
    have hcount : m + n - (0 + done.length) = tail'.length := by omega
    have hmove : moveDown buf' (0 + done.length) tail'.length = some (tail' ++ buf'.drop tail'.length) := by
      rw [moveDown, if_pos (by omega), hdrop, take_left' rfl]
    rw [hsplit, append_assoc] at h0 hs
    have hlen' : (tail' ++ buf'.drop tail'.length).length = BUFSIZE := by
      rw [length_append, length_drop]
      omega
    have hrest := ih (stream.drop n).length (by rw [length_drop]; omega) (i := i + 1) hlen' (take_left' rfl) rfl
      (by omega) hn' (fun h => h0 (mem_append_right _ h)) hs.suffix rfl
    rw [if_pos hpos, hread]
    simp only [Option.bind_eq_bind, Option.bind_some, store]
    rw [if_pos hmn, Option.bind_some, hloop, Option.bind_some]
    dsimp only
    rw [if_pos (Nat.add_pos_right m hpos), hcount, hmove, Option.bind_some, hrest, Option.bind_some, hmore]
  · rw [if_neg hpos, wanted_tail]
    by_cases hz : stream = []
    · rwa [hz, append_nil]
    · have := length_pos_iff.mpr hz
      exact not_mem_of_full hn (by omega) hs

/-- **The output of `grep`** does not depend on how `read` splits its input. -/
theorem grep_lines (pattern stream buf : List UInt8) (size : Nat → Nat) (hbuf : buf.length = BUFSIZE) (h0 : 0 ∉ stream)
    (hs : Short stream) : grep pattern size stream buf = some (wanted pattern stream) :=
  grepLoop_eq hbuf rfl rfl (by decide) not_mem_nil h0 hs

/-- The line `a`, byte by byte. -/
theorem grep_lines_bytes : grep [97] (fun _ => 0) [97, 10] (replicate BUFSIZE 0) = some [97, 10] := by
  have hs : Short [97, 10] := fun skip line rest he _ => by
    have := congrArg length he
    simp only [length_append, length_cons, length_nil] at this
    unfold BUFSIZE
    omega
  rw [grep_lines [97] [97, 10] _ (fun _ => 0) length_replicate (by decide) hs]
  have hm : regMatch [97] [97] = true := by simp [regMatch, matchLoop, matchhere, caret, dollar]
  refine congrArg some ((wanted_line (by decide : newline ∉ [97])).trans ?_)
  rw [hm, wanted_tail not_mem_nil]
  rfl

end

end FypOs.User
