import Mathlib.Tactic

/-! BLAKE2b without a key, on words that are natural numbers below `2^64`. -/
namespace Blake2b

/-- Rotation of a 64-bit word to the right. -/
def rotr (n x : ℕ) : ℕ := x*(2^64+1)/2^n % 2^64

/-- One column of the working state. -/
structure Quad where
  a : ℕ
  b : ℕ
  c : ℕ
  d : ℕ

/-- The mixing function on two words of the message. -/
def Quad.mix (q : Quad) (x y : ℕ) : Quad :=
  let a := (q.a+q.b+x) % 2^64
  let d := rotr 32 (q.d ^^^ a)
  let c := (q.c+d) % 2^64
  let b := rotr 24 (q.b ^^^ c)
  let a := (a+b+y) % 2^64
  let d := rotr 16 (d ^^^ a)
  let c := (c+d) % 2^64
  let b := rotr 63 (b ^^^ c)
  ⟨a,b,c,d⟩

/-- The message schedule of each round, sixteen indices of four bits, the first one lowest. -/
def schedule : List ℕ := [
  0xfedcba9876543210,0x357b20c16df984ae,0x491763eadf250c8b,0x8f04a562ebcd1397,
  0xd386cb1efa427509,0x91ef57d438b0a6c2,0xb8293670a4def15c,0xa2684f05931ce7bd,
  0x5a417d2c803b9ef6,0x0dc3e9bf5167482a,0xfedcba9876543210,0x357b20c16df984ae]

def iv : List ℕ := [
  0x6a09e667f3bcc908,0xbb67ae8584caa73b,0x3c6ef372fe94f82b,0xa54ff53a5f1d36f1,
  0x510e527fade682d1,0x9b05688c2b3e6c1f,0x1f83d9abfb41bd6b,0x5be0cd19137e2179]

/-- The word of the block that a round takes in its `i`-th place. -/
def wordAt (block order i : ℕ) : ℕ := block/2^(64*(order/16^i % 16)) % 2^64

structure Working where
  p : Quad
  q : Quad
  r : Quad
  s : Quad

/-- The columns are mixed, then the diagonals. -/
def Working.round (block : ℕ) (v : Working) (order : ℕ) : Working :=
  let m := wordAt block order
  let p := v.p.mix (m 0) (m 1)
  let q := v.q.mix (m 2) (m 3)
  let r := v.r.mix (m 4) (m 5)
  let s := v.s.mix (m 6) (m 7)
  let e := Quad.mix ⟨p.a,q.b,r.c,s.d⟩ (m 8) (m 9)
  let f := Quad.mix ⟨q.a,r.b,s.c,p.d⟩ (m 10) (m 11)
  let g := Quad.mix ⟨r.a,s.b,p.c,q.d⟩ (m 12) (m 13)
  let h := Quad.mix ⟨s.a,p.b,q.c,r.d⟩ (m 14) (m 15)
  ⟨⟨e.a,h.b,g.c,f.d⟩,⟨f.a,e.b,h.c,g.d⟩,⟨g.a,f.b,e.c,h.d⟩,⟨h.a,g.b,f.c,e.d⟩⟩

/-- The chaining value after one block; `count` octets have been read with it. -/
def compress (h : List ℕ) (block count : ℕ) (final : Bool) : List ℕ :=
  let at0 := fun (l : List ℕ) i => l.getD i 0
  let v : Working := ⟨⟨at0 h 0,at0 h 4,at0 iv 0,at0 iv 4 ^^^ count⟩,
    ⟨at0 h 1,at0 h 5,at0 iv 1,at0 iv 5⟩,
    ⟨at0 h 2,at0 h 6,at0 iv 2,if final then at0 iv 6 ^^^ (2^64-1) else at0 iv 6⟩,
    ⟨at0 h 3,at0 h 7,at0 iv 3,at0 iv 7⟩⟩
  let v := schedule.foldl (Working.round block) v
  List.zipWith (· ^^^ ·) h [v.p.a ^^^ v.p.c,v.q.a ^^^ v.q.c,v.r.a ^^^ v.r.c,v.s.a ^^^ v.s.c,
    v.p.b ^^^ v.p.d,v.q.b ^^^ v.q.d,v.r.b ^^^ v.r.d,v.s.b ^^^ v.s.d]

def littleEndian (l : List UInt8) : ℕ := l.foldr (fun b n => b.toNat+256*n) 0

def octetsOf : ℕ → ℕ → List UInt8
  | 0, _ => []
  | k+1, n => UInt8.ofNat (n%256)::octetsOf k (n/256)

/-- Blocks of 128 octets; the last one is the shorter, and is compressed as the last. -/
def blocks : ℕ → List UInt8 → ℕ → List ℕ → List ℕ
  | 0, _, _, h => h
  | k+1, l, count, h =>
    if l.length ≤ 128 then compress h (littleEndian l) (count+l.length) true
    else blocks k (l.drop 128) (count+128) (compress h (littleEndian (l.take 128)) (count+128) false)

/-- The digest of `size` octets. -/
def digest (size : ℕ) (l : List UInt8) : List UInt8 :=
  let h := match iv with
    | word::rest => (word ^^^ (0x01010000 ^^^ size))::rest
    | [] => []
  ((blocks (l.length/128+1) l 0 h).flatMap (octetsOf 8)).take size

theorem length_compress {h : List ℕ} (hh : h.length = 8) (block count : ℕ) (final : Bool) :
    (compress h block count final).length = 8 := by
  simp [compress,hh]

theorem length_blocks {h : List ℕ} (hh : h.length = 8) (k : ℕ) (l : List UInt8) (count : ℕ) :
    (blocks k l count h).length = 8 := by
  induction k generalizing l count h with
  | zero => exact hh
  | succ k ih =>
    rw [blocks]
    split
    · exact length_compress hh ..
    · exact ih (length_compress hh ..) ..

theorem length_octetsOf (k n : ℕ) : (octetsOf k n).length = k := by
  induction k generalizing n with
  | zero => rfl
  | succ k ih => simp [octetsOf,ih]

theorem length_digest {size : ℕ} (hs : size ≤ 64) (l : List UInt8) :
    (digest size l).length = size := by
  have h := length_blocks
    (show ((0x6a09e667f3bcc908 ^^^ (0x01010000 ^^^ size))::iv.tail).length = 8 from rfl)
    (l.length/128+1) l 0
  have hflat : ∀ words : List ℕ, (words.flatMap (octetsOf 8)).length = 8*words.length := by
    intro words
    induction words with
    | nil => rfl
    | cons w words ih => rw [List.flatMap_cons,List.length_append,length_octetsOf,ih]; simp; ring
  change (((blocks (l.length/128+1) l 0
    ((0x6a09e667f3bcc908 ^^^ (0x01010000 ^^^ size))::iv.tail)).flatMap (octetsOf 8)).take size).length = _
  rw [List.length_take,hflat,h]
  omega

example : digest 16 [0x61,0x62,0x63] =
    [0xcf,0x4a,0xb7,0x91,0xc6,0x2b,0x8d,0x2b,0x21,0x09,0xc9,0x02,0x75,0x28,0x78,0x16] := by
  decide +kernel

end Blake2b
