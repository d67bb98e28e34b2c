import MitScheme.Runtime.Ustring

/-!
# Characters in bytes

What the bytes of an object stand for, and that copying keeps it: between any two sizes of characters, a
character arrives with the bytes that the target has for it, and no other character of the target changes.
-/

namespace MitScheme.StringBuilder

open List

namespace Object

variable {o o' : Object}

/-- A byte, as it is read. -/
def byte (o : Object) (i : Nat) : Nat := o.bytes.getD i 0

/-- What the bytes from an index on stand for. -/
def value (o : Object) (w i : Nat) : Nat :=
  match w with
  | 1 => o.byte i
  | 2 => o.byte i + 0x100 * o.byte (i + 1)
  | _ => o.byte i + 0x100 * o.byte (i + 1) + 0x10000 * o.byte (i + 2)

/-- The code point at an index. -/
def cp (o : Object) (k : Nat) : Nat := o.value (width o.cpSize) (width o.cpSize * k)

/-- The characters of an object. -/
def chars (o : Object) : List Nat := (List.range o.length).map o.cp

/-- What is in an object are bytes, and there are enough of them for its characters. -/
structure Valid (o : Object) : Prop where
  bytes : ∀ b ∈ o.bytes, b < 0x100
  size : width o.cpSize * o.length ≤ o.bytes.length
  codePoints : ∀ k < o.length, o.cp k < 0x110000

theorem byteRef_eq_some {i : Nat} (h : i < o.bytes.length) : o.byteRef i = some (o.byte i) := by
  rw [byteRef, byte, getD_eq_getElem?_getD, List.getElem?_eq_getElem h]
  rfl

theorem byte_lt (h : ∀ b ∈ o.bytes, b < 0x100) (i : Nat) : o.byte i < 0x100 := by
  rw [byte, getD_eq_getElem?_getD]
  cases hi : o.bytes[i]? with
  | none => decide
  | some b => exact h b (mem_of_getElem? hi)

/-- What storing a byte does. -/
structure Stored (o : Object) (i b : Nat) (o' : Object) : Prop where
  kind : o'.kind = o.kind
  length : o'.length = o.length
  size : o'.bytes.length = o.bytes.length
  byte : ∀ i', o'.byte i' = if i' = i then b else o.byte i'
  bytes : (∀ b ∈ o.bytes, b < 0x100) → ∀ b ∈ o'.bytes, b < 0x100

theorem byteSet_stored {i b : Nat} (hi : i < o.bytes.length) (hb : b < 0x100) :
    ∃ o', o.byteSet i b = some o' ∧ Stored o i b o' := by
  refine ⟨_, if_pos ⟨hi, hb⟩, rfl, rfl, length_set, fun i' => ?_, fun h x hx => ?_⟩
  · simp only [Object.byte, getD_eq_getElem?_getD, List.getElem?_set]
    by_cases heq : i = i'
    · subst heq
      simp [hi]
    · rw [if_neg heq, if_neg fun h => heq h.symm]
  · rcases mem_or_eq_of_mem_set hx with hx | rfl
    · exact h x hx
    · exact hb

theorem cpSize_of_kind (h : o'.kind = o.kind) : o'.cpSize = o.cpSize := by
  rw [cpSize, cpSize, h]

theorem width_other {size : Nat} (h1 : size = 1 → False) (h2 : size = 2 → False) : width size = 3 := by
  unfold width
  split
  · exact (h1 rfl).elim
  · exact (h2 rfl).elim
  · rfl

@[simp] theorem value_one (i : Nat) : o.value 1 i = o.byte i := rfl

@[simp] theorem value_two (i : Nat) : o.value 2 i = o.byte i + 0x100 * o.byte (i + 1) := rfl

@[simp] theorem value_three (i : Nat) :
    o.value 3 i = o.byte i + 0x100 * o.byte (i + 1) + 0x10000 * o.byte (i + 2) := rfl

theorem or_shift {a b n : Nat} (h : a < 2 ^ n) : a ||| b <<< n = a + 2 ^ n * b := by
  rw [Nat.or_comm, ← Nat.shiftLeft_add_eq_or_of_lt h, Nat.shiftLeft_eq, Nat.mul_comm, Nat.add_comm]

theorem cpRef_eq_some (hbytes : ∀ b ∈ o.bytes, b < 0x100) {k : Nat}
    (hk : width o.cpSize * (k + 1) ≤ o.bytes.length) : o.cpRef k = some (o.cp k) := by
  unfold cpRef cp
  split
  · rename_i hsize
    rw [hsize] at hk ⊢
    simp only [width] at hk
    rw [cp1Ref, byteRef_eq_some (by omega), show width 1 = 1 from rfl, value_one, Nat.one_mul]
  · rename_i hsize
    rw [hsize] at hk ⊢
    simp only [width] at hk
    simp only [cp2Ref, byteRef_eq_some (show 2 * k < o.bytes.length by omega),
      byteRef_eq_some (show 2 * k + 1 < o.bytes.length by omega)]
    have hlow : o.byte (2 * k) < 2 ^ 8 := byte_lt hbytes _
    exact congrArg some (or_shift hlow)
  · rename_i h1 h2
    rw [width_other h1 h2] at hk ⊢
    simp only [cp3Ref, byteRef_eq_some (show 3 * k < o.bytes.length by omega),
      byteRef_eq_some (show 3 * k + 1 < o.bytes.length by omega),
      byteRef_eq_some (show 3 * k + 2 < o.bytes.length by omega)]
    have hlow : o.byte (3 * k) < 2 ^ 8 := byte_lt hbytes _
    have hmiddle : o.byte (3 * k + 1) < 2 ^ 8 := byte_lt hbytes _
    have hhigh : o.byte (3 * k + 1) <<< 8 ||| o.byte (3 * k + 2) <<< 16
        = (o.byte (3 * k + 1) ||| o.byte (3 * k + 2) <<< 8) <<< 8 := by
      rw [Nat.shiftLeft_or_distrib, ← Nat.shiftLeft_add]
    refine congrArg some ?_
    rw [hhigh, or_shift hlow, or_shift hmiddle, value_three]
    omega

end Object

/-! ## Copying -/

/-- Some bytes of an object are written, which stand for a value afterwards. -/
structure Written (target : Object) (w i value : Nat) (target' : Object) : Prop where
  kind : target'.kind = target.kind
  length : target'.length = target.length
  size : target'.bytes.length = target.bytes.length
  value : target'.value w i = value
  frame : ∀ i', i' < i ∨ i + w ≤ i' → target'.byte i' = target.byte i'
  bytes : (∀ b ∈ target.bytes, b < 0x100) → ∀ b ∈ target'.bytes, b < 0x100

open Object

variable {source target : Object}

variable {i j v : Nat} {target1 target' : Object}

theorem copyByte_stored (hbytes : ∀ b ∈ source.bytes, b < 0x100) {n : Nat}
    (hi : i + n < source.bytes.length) (hj : j + n < target.bytes.length) :
    ∃ target', copyByte source j i n target = some target'
      ∧ Stored target (j + n) (source.byte (i + n)) target' := by
  obtain ⟨target', hset, hstored⟩ := byteSet_stored hj (byte_lt hbytes (i + n))
  refine ⟨target', ?_, hstored⟩
  rw [copyByte, byteRef_eq_some hi]
  exact hset

theorem zeroByte_stored {n : Nat} (hj : j + n < target.bytes.length) :
    ∃ target', zeroByte j n target = some target' ∧ Stored target (j + n) 0 target' :=
  byteSet_stored hj (by decide)

theorem Object.Stored.written1 {b : Nat} (h : Stored target j b target1) :
    Written target 1 j b target1 where
  kind := h.kind
  length := h.length
  size := h.size
  value := by rw [value_one, h.byte, if_pos rfl]
  frame i' hi' := by rw [h.byte, if_neg (by omega)]
  bytes := h.bytes

theorem Object.Stored.written2 {target2 : Object} {b0 b1 : Nat} (h0 : Stored target j b0 target1)
    (h1 : Stored target1 (j + 1) b1 target2) : Written target 2 j (b0 + 0x100 * b1) target2 where
  kind := h1.kind.trans h0.kind
  length := h1.length.trans h0.length
  size := h1.size.trans h0.size
  value := by
    rw [value_two, h1.byte, h1.byte, if_pos rfl, if_neg (by omega), h0.byte, if_pos rfl]
  frame i' hi' := by rw [h1.byte, if_neg (by omega), h0.byte, if_neg (by omega)]
  bytes h := h1.bytes (h0.bytes h)

theorem Object.Stored.written3 {target2 target3 : Object} {b0 b1 b2 : Nat}
    (h0 : Stored target j b0 target1) (h1 : Stored target1 (j + 1) b1 target2)
    (h2 : Stored target2 (j + 2) b2 target3) :
    Written target 3 j (b0 + 0x100 * b1 + 0x10000 * b2) target3 where
  kind := h2.kind.trans (h1.kind.trans h0.kind)
  length := h2.length.trans (h1.length.trans h0.length)
  size := h2.size.trans (h1.size.trans h0.size)
  value := by
    rw [value_three, h2.byte, h2.byte, h2.byte, if_pos rfl, if_neg (by omega), if_neg (by omega), h1.byte, h1.byte,
      if_pos rfl, if_neg (by omega), h0.byte, if_pos rfl]
  frame i' hi' := by
    rw [h2.byte, if_neg (by omega), h1.byte, if_neg (by omega), h0.byte, if_neg (by omega)]
  bytes h := h2.bytes (h1.bytes (h0.bytes h))

theorem Written.congr {w v' : Nat} (h : Written target w j v target') (hv : v = v') :
    Written target w j v' target' := hv ▸ h

theorem width_cases (size : Nat) : width size = 1 ∨ width size = 2 ∨ width size = 3 := by
  unfold width
  split <;> decide

theorem copyChar_width (fromSize toSize : Nat) (source : Object) (j i : Nat) (target : Object) :
    copyChar fromSize toSize source j i target
      = copyChar (width fromSize) (width toSize) source j i target := by
  rcases fromSize with _ | _ | _ | fromSize <;> rcases toSize with _ | _ | _ | toSize <;> rfl

theorem copyChar_written (fromSize toSize : Nat) (hbytes : ∀ b ∈ source.bytes, b < 0x100)
    (hi : i + width fromSize ≤ source.bytes.length) (hj : j + width toSize ≤ target.bytes.length) :
    ∃ target', copyChar fromSize toSize source j i target = some target'
      ∧ Written target (width toSize) j (source.value (width fromSize) i % 0x100 ^ width toSize) target' := by
  have hlow : source.byte i < 0x100 := byte_lt hbytes i
  have hmiddle : source.byte (i + 1) < 0x100 := byte_lt hbytes (i + 1)
  have hhigh : source.byte (i + 2) < 0x100 := byte_lt hbytes (i + 2)
  have hcopy : ∀ n t, t.bytes.length = target.bytes.length → n < width fromSize → n < width toSize →
      ∃ t', copyByte source j i n t = some t' ∧ Stored t (j + n) (source.byte (i + n)) t' :=
    fun n t ht hf hto => copyByte_stored hbytes (by omega) (by omega)
  have hzero : ∀ n t, t.bytes.length = target.bytes.length → n < width toSize →
      ∃ t', zeroByte j n t = some t' ∧ Stored t (j + n) 0 t' :=
    fun n t ht hto => zeroByte_stored (by omega)
  rw [copyChar_width]
  rcases width_cases fromSize with hf | hf | hf <;> rcases width_cases toSize with ht | ht | ht <;>
    rw [hf, ht] at hcopy ⊢ <;> rw [ht] at hzero <;>
    obtain ⟨t1, h1, s1⟩ := hcopy 0 target rfl (by decide) (by decide)
  · exact ⟨t1, h1, s1.written1.congr (by simp only [value_one, Nat.add_zero]; omega)⟩
  · obtain ⟨t2, h2, s2⟩ := hzero 1 t1 s1.size (by decide)
    refine ⟨t2, ?_, (s1.written2 s2).congr (by simp only [value_one, Nat.add_zero]; omega)⟩
    change copyByte source j i 0 target >>= zeroByte j 1 = _
    rw [h1]
    exact h2
  · obtain ⟨t2, h2, s2⟩ := hzero 1 t1 s1.size (by decide)
    obtain ⟨t3, h3, s3⟩ := hzero 2 t2 (s2.size.trans s1.size) (by decide)
    refine ⟨t3, ?_, (s1.written3 s2 s3).congr (by simp only [value_one, Nat.add_zero]; omega)⟩
    change copyByte source j i 0 target >>= zeroByte j 1 >>= zeroByte j 2 = _
    rw [h1]
    change zeroByte j 1 t1 >>= zeroByte j 2 = _
    rw [h2]
    exact h3
  · exact ⟨t1, h1, s1.written1.congr (by simp only [value_two, Nat.add_zero]; omega)⟩
  · obtain ⟨t2, h2, s2⟩ := hcopy 1 t1 s1.size (by decide) (by decide)
    refine ⟨t2, ?_, (s1.written2 s2).congr (by simp only [value_two, Nat.add_zero]; omega)⟩
    change copyByte source j i 0 target >>= copyByte source j i 1 = _
    rw [h1]
    exact h2
  · obtain ⟨t2, h2, s2⟩ := hcopy 1 t1 s1.size (by decide) (by decide)
    obtain ⟨t3, h3, s3⟩ := hzero 2 t2 (s2.size.trans s1.size) (by decide)
    refine ⟨t3, ?_, (s1.written3 s2 s3).congr (by simp only [value_two, Nat.add_zero]; omega)⟩
    change copyByte source j i 0 target >>= copyByte source j i 1 >>= zeroByte j 2 = _
    rw [h1]
    change copyByte source j i 1 t1 >>= zeroByte j 2 = _
    rw [h2]
    exact h3
  · exact ⟨t1, h1, s1.written1.congr (by simp only [value_three, Nat.add_zero]; omega)⟩
  · obtain ⟨t2, h2, s2⟩ := hcopy 1 t1 s1.size (by decide) (by decide)
    refine ⟨t2, ?_, (s1.written2 s2).congr (by simp only [value_three, Nat.add_zero]; omega)⟩
    change copyByte source j i 0 target >>= copyByte source j i 1 = _
    rw [h1]
    exact h2
  · obtain ⟨t2, h2, s2⟩ := hcopy 1 t1 s1.size (by decide) (by decide)
    obtain ⟨t3, h3, s3⟩ := hcopy 2 t2 (s2.size.trans s1.size) (by decide) (by decide)
    refine ⟨t3, ?_, (s1.written3 s2 s3).congr (by simp only [value_three, Nat.add_zero]; omega)⟩
    change copyByte source j i 0 target >>= copyByte source j i 1 >>= copyByte source j i 2 = _
    rw [h1]
    change copyByte source j i 1 t1 >>= copyByte source j i 2 = _
    rw [h2]
    exact h3

theorem value_congr {o o' : Object} {w : Nat} (hw : w = 1 ∨ w = 2 ∨ w = 3)
    (h : ∀ n, n < w → o'.byte (i + n) = o.byte (i + n)) : o'.value w i = o.value w i := by
  rcases hw with rfl | rfl | rfl
  · exact h 0 (by decide)
  · rw [value_two, value_two, h 1 (by decide), show o'.byte i = o.byte i from h 0 (by decide)]
  · rw [value_three, value_three, h 1 (by decide), h 2 (by decide),
      show o'.byte i = o.byte i from h 0 (by decide)]

/-- The characters of the target that are copied, and the others. -/
structure Copied (source : Object) (start n : Nat) (target : Object) (at' : Nat) (target' : Object) : Prop where
  kind : target'.kind = target.kind
  length : target'.length = target.length
  size : target'.bytes.length = target.bytes.length
  inside : ∀ k, k < n → target'.cp (at' + k) = source.cp (start + k) % 0x100 ^ width target.cpSize
  outside : ∀ k, k < at' ∨ at' + n ≤ k → target'.cp k = target.cp k
  bytes : (∀ b ∈ target.bytes, b < 0x100) → ∀ b ∈ target'.bytes, b < 0x100

theorem Written.cp_self {at' : Nat}
    (h : Written target (width target.cpSize) (width target.cpSize * at') v target') : target'.cp at' = v := by
  rw [cp, cpSize_of_kind h.kind]
  exact h.value

theorem Written.cp_of_ne {at' k : Nat}
    (h : Written target (width target.cpSize) (width target.cpSize * at') v target') (hk : k ≠ at') :
    target'.cp k = target.cp k := by
  rw [cp, cpSize_of_kind h.kind]
  refine value_congr (width_cases _) fun n hn => h.frame _ ?_
  rcases Nat.lt_or_gt_of_ne hk with hlt | hgt
  · have := Nat.mul_le_mul_left (width target.cpSize) (Nat.succ_le_of_lt hlt)
    rw [Nat.mul_succ] at this
    omega
  · have := Nat.mul_le_mul_left (width target.cpSize) (Nat.succ_le_of_lt hgt)
    rw [Nat.mul_succ] at this
    omega

theorem copyLoop_copied (hbytes : ∀ b ∈ source.bytes, b < 0x100) (left : Nat) : ∀ (start at' : Nat)
    (target : Object), width source.cpSize * (start + left) ≤ source.bytes.length →
    width target.cpSize * (at' + left) ≤ target.bytes.length →
    ∃ target', copyLoop source.cpSize target.cpSize source left (width source.cpSize * start)
        (width target.cpSize * at') target = some target'
      ∧ Copied source start left target at' target' := by
  induction left with
  | zero =>
      intro start at' target _ _
      exact ⟨target, rfl, rfl, rfl, rfl, fun k hk => absurd hk (Nat.not_lt_zero k), fun _ _ => rfl, id⟩
  | succ left ih =>
      intro start at' target hsource htarget
      have hfrom := Nat.mul_le_mul_left (width source.cpSize) (show start + 1 ≤ start + (left + 1) by omega)
      have hto := Nat.mul_le_mul_left (width target.cpSize) (show at' + 1 ≤ at' + (left + 1) by omega)
      rw [Nat.mul_succ] at hfrom hto
      obtain ⟨target1, hchar, hwritten⟩ := copyChar_written source.cpSize target.cpSize hbytes
        (Nat.le_trans hfrom hsource) (Nat.le_trans hto htarget)
      have hsize := cpSize_of_kind hwritten.kind
      obtain ⟨target', hloop, hcopied⟩ := ih (start + 1) (at' + 1) target1
        (by rwa [Nat.add_right_comm start 1 left]) (by rwa [hsize, hwritten.size, Nat.add_right_comm at' 1 left])
      refine ⟨target', ?_, hcopied.kind.trans hwritten.kind, hcopied.length.trans hwritten.length,
        hcopied.size.trans hwritten.size, fun k hk => ?_, fun k hk => ?_, fun h => hcopied.bytes (hwritten.bytes h)⟩
      · rw [hsize] at hloop
        rw [copyLoop, hchar]
        exact hloop
      · cases k with
        | zero =>
            rw [Nat.add_zero, hcopied.outside at' (.inl (Nat.lt_succ_self at')), hwritten.cp_self]
            rfl
        | succ k =>
            have := hcopied.inside k (by omega)
            rwa [hsize, Nat.add_right_comm at' 1 k, Nat.add_right_comm start 1 k] at this
      · rw [hcopied.outside k (by omega), hwritten.cp_of_ne (by omega)]

theorem generalCopy_copied (hbytes : ∀ b ∈ source.bytes, b < 0x100) {start n at' : Nat}
    (hsource : width source.cpSize * (start + n) ≤ source.bytes.length)
    (htarget : width target.cpSize * (at' + n) ≤ target.bytes.length) :
    ∃ target', generalCopy target at' source start (start + n) = some target'
      ∧ Copied source start n target at' target' := by
  have hloop := copyLoop_copied hbytes n start at' target hsource htarget
  rwa [generalCopy, Nat.add_sub_cancel_left]

theorem maxLoop_eq (hbytes : ∀ b ∈ source.bytes, b < 0x100) (left : Nat) : ∀ (i maxCp : Nat),
    width source.cpSize * (i + left) ≤ source.bytes.length →
    maxLoop source left i maxCp
      = some (((List.range' i left).map source.cp).foldl max maxCp) := by
  induction left with
  | zero =>
      intro i maxCp _
      rfl
  | succ left ih =>
      intro i maxCp hsource
      have hi := Nat.mul_le_mul_left (width source.cpSize) (show i + 1 ≤ i + (left + 1) by omega)
      rw [maxLoop, cpRef_eq_some hbytes (Nat.le_trans hi hsource)]
      change maxLoop source left (i + 1) _ = _
      rw [ih (i + 1) _ (by rwa [Nat.add_right_comm i 1 left]), range'_succ, map_cons, foldl_cons]
      congr 2
      split <;> omega

end MitScheme.StringBuilder
