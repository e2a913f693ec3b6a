import Reame.Cache.PrefixCache
import Reame.Cache.Reopening

/-!
# How strong the keys are

`make_key` and `key_for` write the tag and the tokens into one buffer, hash it, put an `x`
behind it and hash it again.  The key is both hashes and the number of tokens.

The buffer loses nothing: the tokens have a fixed width, so their number says where the tag
ends, whatever bytes it has (`keyMaterial_inj`).  The second hash adds nothing: FNV-1a takes
in a byte at a time, so that the hash with the `x` is one step from the hash without
(`checksum_perturbed_iff`).  What keeps two keys of one length apart is 64 bits
(`hashedKey_eq_iff`).

The step is injective in the state and in the byte, so a checksum at least tells apart what
differs in a single byte (`checksum_single_byte`).
-/

namespace Reame.Cache

/-! ## The checksum -/

theorem checksum_append (data later : Bytes) :
    checksum (data ++ later) = Fnv.hash (checksum data) later :=
  Fnv.hash_append ..

/-- The second hash of a key separates what the first one does, and nothing else. -/
theorem checksum_perturbed_iff (data data' later : Bytes) :
    checksum (data ++ later) = checksum (data' ++ later) ↔ checksum data = checksum data' := by
  rw [checksum_append, checksum_append]
  exact ⟨Fnv.hash_left_inj, fun heq => by rw [heq]⟩

/-- Lists of one length that differ at one place only have a common front and a common
rest. -/
theorem exists_split_of_unique {data data' : Bytes} (hlength : data.length = data'.length)
    (hunique : ∃! i : ℕ, data[i]? ≠ data'[i]?) :
    ∃ before b b' after, b ≠ b' ∧ data = before ++ b :: after ∧ data' = before ++ b' :: after := by
  obtain ⟨i, hi, honly⟩ := hunique
  have hsame : ∀ j, j ≠ i → data[j]? = data'[j]? := fun j hj => by
    by_contra hne
    exact hj (honly j hne)
  have hlt : i < data.length := by
    by_contra hge
    exact hi (by rw [List.getElem?_eq_none (by omega), List.getElem?_eq_none (by omega)])
  have hlt' : i < data'.length := hlength ▸ hlt
  have hfront : data.take i = data'.take i := by
    refine List.ext_getElem? fun j => ?_
    rcases Nat.lt_or_ge j i with hj | hj
    · rw [List.getElem?_take_of_lt hj, List.getElem?_take_of_lt hj, hsame j hj.ne]
    · rw [List.getElem?_take_eq_none hj, List.getElem?_take_eq_none hj]
  have hrest : data.drop (i + 1) = data'.drop (i + 1) := by
    refine List.ext_getElem? fun j => ?_
    rw [List.getElem?_drop, List.getElem?_drop, hsame _ (by omega)]
  refine ⟨data.take i, data[i], data'[i], data.drop (i + 1), ?_, ?_, ?_⟩
  · simpa [hlt, hlt'] using hi
  · rw [← List.drop_eq_getElem_cons hlt, List.take_append_drop]
  · rw [hfront, hrest, ← List.drop_eq_getElem_cons hlt', List.take_append_drop]

/-- The checksum of a vector of any length changes with any single byte of it. -/
theorem checksum_single_byte {data data' : Bytes} (hlength : data.length = data'.length)
    (hunique : ∃! i : ℕ, data[i]? ≠ data'[i]?) : checksum data ≠ checksum data' := by
  obtain ⟨before, b, b', after, hne, rfl, rfl⟩ := exists_split_of_unique hlength hunique
  exact fun heq => hne (checksum_byte_inj heq)

/-- A flipped bit in the middle of four bytes. -/
theorem checksum_single_byte_four : checksum [1, 2, 3, 4] ≠ checksum [1, 2, 7, 4] := by
  refine checksum_single_byte rfl ⟨2, by simp, fun i hi => ?_⟩
  match i with
  | 0 | 1 | 3 | _ + 4 => simp at hi
  | 2 => rfl

/-! ## The material -/

/-- The tag and the tokens can be read back from what is hashed, if their number is known. -/
theorem keyMaterial_inj {tag tag' : Bytes} {tokens tokens' : List TokenId}
    (htokens : ∀ t ∈ tokens, -2 ^ 31 ≤ t ∧ t < 2 ^ 31)
    (htokens' : ∀ t ∈ tokens', -2 ^ 31 ≤ t ∧ t < 2 ^ 31) (hlength : tokens.length = tokens'.length)
    (heq : keyMaterial tag tokens = keyMaterial tag' tokens') : tag = tag' ∧ tokens = tokens' := by
  let words : List TokenId → List ℕ := List.map fun t => (t % 2 ^ 32).toNat
  have hmaterial : ∀ (tag : Bytes) (tokens : List TokenId), keyMaterial tag tokens =
      (tag ++ [0]) ++ (words tokens).flatMap (LittleEndian.bytes 4) := fun tag tokens => by
    rw [keyMaterial, List.flatMap_map]
  -- A token is known by its low 32 bits.
  have hlow : ∀ a b : ℤ, (-2 ^ 31 ≤ a ∧ a < 2 ^ 31) → (-2 ^ 31 ≤ b ∧ b < 2 ^ 31) →
      (a % 2 ^ 32).toNat = (b % 2 ^ 32).toNat → a = b := by omega
  have hword : ∀ tokens : List TokenId, ∀ n ∈ words tokens, n < 256 ^ 4 := by
    intro tokens n hn
    obtain ⟨t, -, rfl⟩ := List.mem_map.mp hn
    omega
  have hcount : ∀ tokens : List TokenId,
      ((words tokens).flatMap (LittleEndian.bytes 4)).length = tokens.length * 4 := fun tokens => by
    rw [LittleEndian.length_flatMap_bytes, List.length_map]
  rw [hmaterial, hmaterial] at heq
  obtain ⟨htag, hbytes⟩ := List.append_inj' heq (by rw [hcount, hcount, hlength])
  refine ⟨List.append_cancel_right htag, ?_⟩
  have hwords : words tokens = words tokens' := LittleEndian.flatMap_bytes_inj
    (by simpa [words] using hlength) (hword tokens) (hword tokens') hbytes
  refine List.ext_getElem hlength fun i hi hi' => ?_
  have hat : (tokens[i] % 2 ^ 32).toNat = (tokens'[i] % 2 ^ 32).toNat := by
    have hget := congrArg (fun ns => ns[i]?) hwords
    simpa [words, hi, hi'] using hget
  exact hlow _ _ (htokens _ (List.getElem_mem hi)) (htokens' _ (List.getElem_mem hi')) hat

/-! ## The key -/

/-- The keys of one kind are told apart by the number of tokens and by the first hash. -/
theorem hashedKey_eq_iff (kind tag tag' : Bytes) (tokens tokens' : List TokenId) :
    hashedKey kind tag tokens = hashedKey kind tag' tokens' ↔
      tokens.length = tokens'.length ∧
        checksum (keyMaterial tag tokens) = checksum (keyMaterial tag' tokens') := by
  constructor
  · intro heq
    have hdash : Wire.isDigit (chr '-') = false := by decide
    simp only [hashedKey, List.append_assoc, List.append_cancel_left_eq] at heq
    obtain ⟨hfirst, heq⟩ := Wire.decimal_append_inj hdash hdash heq
    obtain ⟨-, heq⟩ := Wire.decimal_append_inj hdash hdash (List.cons.inj heq).2
    have hcount := Wire.decimal_inj (List.cons.inj (List.cons.inj heq).2).2
    exact ⟨hcount, UInt64.toNat_inj.mp hfirst⟩
  · rintro ⟨hcount, hfirst⟩
    have hsecond := (checksum_perturbed_iff _ _ (ascii "x")).mpr hfirst
    simp only [hashedKey, hcount, hfirst, hsecond]

/-- What two inputs of `make_key`, or of `key_for`, have in common when their keys do: the number
of tokens and one hash of the material.  The material itself determines the input. -/
theorem keys_carry_one_hash {tag tag' : Bytes} {tokens tokens' : List TokenId}
    (htokens : ∀ t ∈ tokens, -2 ^ 31 ≤ t ∧ t < 2 ^ 31)
    (htokens' : ∀ t ∈ tokens', -2 ^ 31 ≤ t ∧ t < 2 ^ 31) :
    let raw := keyMaterial tag tokens
    let raw' := keyMaterial tag' tokens'
    (raw = raw' ∧ tokens.length = tokens'.length ↔ tag = tag' ∧ tokens = tokens') ∧
      (makeKey tag tokens = makeKey tag' tokens' ↔
        tokens.length = tokens'.length ∧ checksum raw = checksum raw') ∧
      (∀ (cache cache' : PrefixCache) (later later' : List TokenId),
        cache.modelTag = tag → cache'.modelTag = tag' →
          (cache.keyFor (tokens ++ later) tokens.length =
              cache'.keyFor (tokens' ++ later') tokens'.length ↔
            tokens.length = tokens'.length ∧ checksum raw = checksum raw')) ∧
      (checksum (raw ++ ascii "x") = checksum (raw' ++ ascii "x") ↔ checksum raw = checksum raw') := by
  refine ⟨⟨fun ⟨hraw, hlength⟩ => keyMaterial_inj htokens htokens' hlength hraw, ?_⟩,
    hashedKey_eq_iff _ _ _ _ _, ?_, checksum_perturbed_iff _ _ _⟩
  · rintro ⟨rfl, rfl⟩
    exact ⟨rfl, rfl⟩
  · rintro cache cache' later later' rfl rfl
    rw [PrefixCache.keyFor, PrefixCache.keyFor, List.take_left, List.take_left]
    exact hashedKey_eq_iff _ _ _ _ _

/-- A tag that is a zero, against the empty tag. -/
theorem keys_carry_one_hash_zero_tag :
    (∀ t ∈ [(1 : TokenId)], -2 ^ 31 ≤ t ∧ t < 2 ^ 31) ∧
      ¬ (keyMaterial [0] [1] = keyMaterial [] [1] ∧ [(1 : TokenId)].length = 1) := by
  have hrange : ∀ t ∈ [(1 : TokenId)], -2 ^ 31 ≤ t ∧ t < 2 ^ 31 := by simp
  refine ⟨hrange, fun hsame => ?_⟩
  have htag := ((keys_carry_one_hash hrange hrange).1.mp hsame).1
  exact absurd htag (by decide)

end Reame.Cache
