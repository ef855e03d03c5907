import GraphQL.Binary
import Mathlib.Algebra.Group.Nat.Defs

/-!
# Codecs that read back what they write

A codec is faithful on some values when it reads each of them back from the bytes it writes, whatever follows, and
when more bytes behind an input do not change what is read from it. A faithful codec then reads nothing from a part
of what it writes (`Faithful.read_eq_none`). Pairs, options, lists and other compositions of faithful codecs are
faithful (`Faithful.pair` to `Faithful.list`).
-/

namespace GraphQL.Codec

variable {α β : Type}

/-- Reads the value from just these bytes, whatever follows them. -/
def Reads (r : Reader α) (bytes : List UInt8) (a : α) : Prop :=
  ∀ rest, r (bytes ++ rest) = some (a, rest)

/-- What the first reader reads from an input, the second reads too when more bytes follow. -/
def Extends (r s : Reader α) : Prop :=
  ∀ bytes a rest, r bytes = some (a, rest) → ∀ more, s (bytes ++ more) = some (a, rest ++ more)

private theorem bind_apply (r : Reader α) (f : α → Reader β) (bytes : List UInt8) :
    (r >>= f) bytes = (r bytes).bind fun p => f p.1 p.2 := rfl

namespace Reads

theorem pure (a : α) : Reads (pure a) [] a := fun _ => rfl

/-- What two readers read one after the other stands there one after the other. -/
theorem bind {r : Reader α} {f : α → Reader β} {bs cs : List UInt8} {a : α} {b : β} (hr : Reads r bs a)
    (hf : Reads (f a) cs b) : Reads (r >>= f) (bs ++ cs) b := by
  intro rest
  rw [bind_apply, List.append_assoc, hr]
  exact hf rest

/-- A last step gives the result. -/
theorem last {r : Reader α} {f : α → β} {bs : List UInt8} {a : α} (hr : Reads r bs a) :
    Reads (do return f (← r)) bs (f a) := by
  rw [← List.append_nil bs]
  exact hr.bind (pure (f a))

private theorem map {r : Reader α} {f : α → β} {bs : List UInt8} {a : α} (hr : Reads r bs a) :
    Reads (f <$> r) bs (f a) := by
  rw [map_eq_pure_bind]
  exact hr.last

end Reads

namespace Extends

theorem pure (a : α) : Extends (pure a) (pure a) := by
  intro bytes b rest h more
  obtain ⟨rfl, rfl⟩ := Prod.mk.inj (Option.some.inj h)
  rfl

theorem failure (s : Reader α) : Extends failure s := by
  intro bytes a rest h
  cases h

/-- More bytes at the end change nothing for two readers, one after the other, if they change nothing for either. -/
theorem bind {r s : Reader α} {f g : α → Reader β} (hr : Extends r s) (hf : ∀ a, Extends (f a) (g a)) :
    Extends (r >>= f) (s >>= g) := by
  intro bytes b rest h more
  rw [bind_apply] at h
  obtain ⟨⟨a, left⟩, hra, hfb⟩ := Option.bind_eq_some_iff.1 h
  rw [bind_apply, hr bytes a left hra more]
  exact hf a left b rest hfb more

private theorem map {r s : Reader α} (f : α → β) (hr : Extends r s) : Extends (f <$> r) (f <$> s) := by
  rw [map_eq_pure_bind, map_eq_pure_bind]
  exact hr.bind fun a => pure (f a)

private theorem ite {c : Prop} [Decidable c] {r s r' s' : Reader α} (h : Extends r s) (h' : Extends r' s') :
    Extends (if c then r else r') (if c then s else s') := by
  split
  · exact h
  · exact h'

end Extends

private theorem extends_readByte : Extends readByte readByte := by
  intro bytes a rest h more
  cases bytes with
  | nil => cases h
  | cons b bytes =>
    obtain ⟨rfl, rfl⟩ := Prod.mk.inj (Option.some.inj h)
    rfl

private theorem extends_readLittleEndian (k : Nat) : Extends (readLittleEndian k) (readLittleEndian k) := by
  induction k with
  | zero => exact .pure 0
  | succ k ih => exact extends_readByte.bind fun low => ih.bind fun high => .pure _

/-- Where a number ends is told by its first byte, so that later bytes do not matter. -/
private theorem extends_readVarint (width : Nat) : Extends (readVarint width) (readVarint width) := by
  refine extends_readByte.bind fun marker => .ite (.pure _) (.ite ?_ (.ite ?_ (.ite ?_ ?_)))
  · exact extends_readLittleEndian 2
  · exact extends_readLittleEndian 4
  · exact extends_readLittleEndian 8
  · exact .failure _

private theorem reads_readByte (b : UInt8) : Reads readByte [b] b := fun _ => rfl

/-- A number that `k` bytes hold is read back from them. -/
theorem reads_littleEndian {k n : Nat} (h : n < 256 ^ k) : Reads (readLittleEndian k) (littleEndian k n) n := by
  induction k generalizing n with
  | zero =>
    obtain rfl : n = 0 := by simpa using h
    exact .pure 0
  | succ k ih =>
    have hhigh : n / 256 < 256 ^ k := by
      rw [Nat.div_lt_iff_lt_mul (by decide)]
      simpa [Nat.pow_succ] using h
    have hvalue : (UInt8.ofNat n).toNat + 256 * (n / 256) = n := by
      rw [UInt8.toNat_ofNat']
      omega
    have hrest : Reads (do return (UInt8.ofNat n).toNat + 256 * (← readLittleEndian k))
        (littleEndian k (n / 256)) ((UInt8.ofNat n).toNat + 256 * (n / 256)) := (ih hhigh).last
    rw [hvalue] at hrest
    exact (reads_readByte (UInt8.ofNat n)).bind hrest

/-- A number is read back by a reader of numbers that are as wide. -/
theorem reads_writeVarint {width n : Nat} (h : n < UInt32.size ∨ 8 ≤ width ∧ n < UInt64.size) :
    Reads (readVarint width) (writeVarint n) n := by
  have hmarked (marker : UInt8) (k : Nat) (hn : n < 256 ^ k)
      (hnext : ∀ bytes, readVarint width (marker :: bytes) = readLittleEndian k bytes) :
      Reads (readVarint width) (marker :: littleEndian k n) n := by
    intro rest
    rw [List.cons_append, hnext]
    exact reads_littleEndian hn rest
  unfold writeVarint
  split
  · rename_i hsmall
    intro rest
    have hmarker : (UInt8.ofNat n).toNat = n := by
      rw [UInt8.toNat_ofNat']
      omega
    have hle : UInt8.ofNat n ≤ 250 := by
      rw [UInt8.le_iff_toNat_le, hmarker]
      exact hsmall
    have hread : readVarint width (UInt8.ofNat n :: rest) = some ((UInt8.ofNat n).toNat, rest) := by
      rw [readVarint, bind_apply]
      simp only [readByte, Option.bind_some, if_pos hle]
      rfl
    rw [List.cons_append, List.nil_append, hread, hmarker]
  · split
    · rename_i h16
      exact hmarked 251 2 h16 fun bytes => rfl
    · split
      · rename_i h32
        exact hmarked 252 4 h32 fun bytes => rfl
      · rename_i h16 h32
        obtain ⟨hwidth, h64⟩ := h.resolve_left h32
        rw [if_pos h64]
        refine hmarked 253 8 h64 fun bytes => ?_
        rw [readVarint, bind_apply]
        simp only [readByte, Option.bind_some]
        rw [if_neg (by decide), if_neg (by decide), if_neg (by decide), if_pos ⟨trivial, hwidth⟩]

theorem Extends.readTimes {r s : Reader α} (h : Extends r s) (n : Nat) :
    Extends (readTimes r n) (readTimes s n) := by
  induction n with
  | zero => exact .pure []
  | succ n ih => exact h.bind fun a => ih.bind fun as => .pure (a :: as)

/-- Values written one after the other are read back, when their number is known. -/
private theorem reads_readTimes {r : Reader α} {write : α → List UInt8} {as : List α}
    (h : ∀ a ∈ as, Reads r (write a) a) : Reads (readTimes r as.length) (as.flatMap write) as := by
  induction as with
  | nil => exact .pure []
  | cons a as ih =>
    rw [List.flatMap_cons]
    exact (h a (.head as)).bind (ih fun b hb => h b (.tail a hb)).last

private theorem extends_readBytes (n : Nat) : Extends (readBytes n) (readBytes n) := by
  intro bytes a rest h more
  unfold readBytes at h ⊢
  split at h
  · rename_i hn
    obtain ⟨rfl, rfl⟩ := Prod.mk.inj (Option.some.inj h)
    have hmore : n ≤ (bytes ++ more).length := by
      rw [List.length_append]
      omega
    rw [if_pos hmore, List.take_append_of_le_length hn, List.drop_append_of_le_length hn]
  · cases h

/-- Bytes are read back as they are, when their number is known. -/
private theorem reads_readBytes (bytes : List UInt8) : Reads (readBytes bytes.length) bytes bytes := by
  intro rest
  have hn : bytes.length ≤ (bytes ++ rest).length := by
    rw [List.length_append]
    omega
  rw [readBytes, if_pos hn, List.take_left', List.drop_left'] <;> rfl

private theorem toList_loop (bytes : ByteArray) (i : Nat) (read : List UInt8) :
    ByteArray.toList.loop bytes i read = read.reverse ++ bytes.data.toList.drop i := by
  induction i, read using ByteArray.toList.loop.induct bytes with
  | case1 i read hmore ih =>
    have hdrop : bytes.data.toList.drop i = bytes.get! i :: bytes.data.toList.drop (i + 1) := by
      rw [List.drop_eq_getElem_cons hmore]
      congr 1
      exact (getElem!_pos bytes.data i hmore).symm
    rw [ByteArray.toList.loop, if_pos hmore, ih, List.reverse_cons, List.append_assoc, hdrop]
    rfl
  | case2 i read hstop =>
    rw [ByteArray.toList.loop, if_neg hstop, List.drop_of_length_le (Nat.le_of_not_lt hstop), List.append_nil]

private theorem toByteArray_toList (bytes : ByteArray) : bytes.toList.toByteArray = bytes := by
  apply ByteArray.ext
  rw [List.data_toByteArray, ByteArray.toList, toList_loop]
  simp

/-- A string is decoded from its own bytes. -/
private theorem fromUTF8?_toList (s : String) : String.fromUTF8? s.toUTF8.toList.toByteArray = some s := by
  rw [toByteArray_toList]
  exact dif_pos s.isValidUTF8

/-! ### Faithful codecs -/

/-- The codec reads the values of the condition back, and what it reads does not depend on what follows. -/
structure Faithful (c : Codec α) (P : α → Prop) : Prop where
  reads : ∀ a, P a → Reads c.read (c.write a) a
  steady : Extends c.read c.read

namespace Faithful

variable {a : Codec α} {b : Codec β} {P : α → Prop} {Q : β → Prop}

/-- From a part of what is written, nothing is read. -/
theorem read_eq_none (h : a.Faithful P) {x : α} (hx : P x) {part left : List UInt8}
    (hwrite : a.write x = part ++ left) (hleft : left ≠ []) : a.read part = none := by
  cases hpart : a.read part with
  | none => rfl
  | some r =>
    obtain ⟨y, rest⟩ := r
    have hwhole := h.reads x hx []
    rw [List.append_nil, hwrite, h.steady part y rest hpart left] at hwhole
    have hrest : rest ++ left = [] := (Prod.mk.inj (Option.some.inj hwhole)).2
    exact absurd (List.append_eq_nil_iff.1 hrest).2 hleft

/-- A codec that is faithful to some values is faithful to fewer of them. -/
theorem mono {P' : α → Prop} (h : a.Faithful P) (hP : ∀ x, P' x → P x) : a.Faithful P' :=
  ⟨fun x hx => h.reads x (hP x hx), h.steady⟩

theorem word : word.Faithful (· < UInt32.size) :=
  ⟨fun _ hn => reads_writeVarint (.inl hn), extends_readVarint 4⟩

theorem length : length.Faithful (· < UInt64.size) :=
  ⟨fun _ hn => reads_writeVarint (.inr ⟨Nat.le_refl 8, hn⟩), extends_readVarint 8⟩

/-- A reader that takes fuel reads what it is to read when the bytes themselves are the fuel, provided that these
are enough for a value's own bytes and more fuel changes nothing. -/
theorem ofFuel {write : α → List UInt8} {read : Nat → Reader α}
    (hsteady : ∀ {n m}, n ≤ m → Extends (read n) (read m))
    (hreads : ∀ a, P a → ∀ fuel, (write a).length ≤ fuel → Reads (read fuel) (write a) a) :
    Codec.Faithful ⟨write, fun bytes => read bytes.length bytes⟩ P where
  reads a ha rest := by
    have henough : (write a).length ≤ (write a ++ rest).length := by
      rw [List.length_append]
      omega
    exact hreads a ha _ henough rest
  steady bytes a rest h more := by
    have henough : bytes.length ≤ (bytes ++ more).length := by
      rw [List.length_append]
      omega
    exact hsteady henough bytes a rest h more

theorem bool : bool.Faithful fun _ => True where
  reads x _ rest := by cases x <;> rfl
  steady := by
    refine extends_readByte.bind fun byte => ?_
    split
    · exact .pure false
    · exact .pure true
    · exact .failure _

/-- A codec of one type serves another whose values can be restored. -/
theorem via {present : α → β} {restore : β → α} (hb : b.Faithful Q) (hrestore : ∀ x, restore (present x) = x) :
    (b.via present restore).Faithful fun x => Q (present x) where
  reads x hx := by
    have hread := (hb.reads (present x) hx).map (f := restore)
    rw [hrestore] at hread
    exact hread
  steady := hb.steady.map restore

/-- A codec of pairs writes the parts in order. -/
theorem pair (ha : a.Faithful P) (hb : b.Faithful Q) : (a.pair b).Faithful fun p => P p.1 ∧ Q p.2 where
  reads p hp := (ha.reads p.1 hp.1).bind (hb.reads p.2 hp.2).last
  steady := ha.steady.bind fun x => hb.steady.bind fun y => .pure (x, y)

theorem option (ha : a.Faithful P) : (option a).Faithful (∀ x ∈ ·, P x) where
  reads o ho := by
    cases o with
    | none => exact fun rest => rfl
    | some x => exact (bool.reads true trivial).bind (ha.reads x (ho x rfl)).map
  steady := bool.steady.bind fun there => .ite (ha.steady.map some) (.pure none)

/-- A codec of lists writes their length first, which must fit into 64 bits. -/
theorem list (ha : a.Faithful P) : (list a).Faithful fun as => as.length < UInt64.size ∧ ∀ x ∈ as, P x where
  reads as has := (length.reads as.length has.1).bind (reads_readTimes fun x hx => ha.reads x (has.2 x hx))
  steady := length.steady.bind ha.steady.readTimes

/-- A codec of strings writes their bytes, with their number first. -/
theorem string : string.Faithful (·.utf8ByteSize < UInt64.size) where
  reads s hs := by
    have hsize : s.toUTF8.toList.length = s.utf8ByteSize := by
      rw [← List.size_toByteArray, toByteArray_toList]
      exact String.size_toByteArray
    have hbytes := reads_readBytes s.toUTF8.toList
    rw [hsize] at hbytes
    refine (length.reads s.utf8ByteSize hs).bind fun rest => ?_
    -- the bytes are those of the text, so that they are decoded to it
    rw [bind_apply, hbytes rest, Option.bind_some, fromUTF8?_toList]
    rfl
  steady := by
    refine length.steady.bind fun n => (extends_readBytes n).bind fun bytes => ?_
    split
    · exact .pure _
    · exact .failure _

end Faithful

end GraphQL.Codec
