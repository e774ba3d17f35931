/-
The cryptographic and compression primitives, as the code calls them.

AES-GCM, lzma and SHA-256 are other people's code.  `Primitives` lists the calls
the boxes make together with the documented behaviour they rely on: decryption
undoes encryption and a ciphertext is 16 bytes longer than its plaintext,
decompression undoes compression and rejects an empty stream, and a digest has
32 bytes.  Everything about the boxes is proved for any such primitives.
-/
import Mathlib
import VStorage.Py

/-- `NONCE_LEN` bytes from `os.urandom`. -/
abbrev Nonce := {n : Bytes // n.length = 12}

/-- The key lengths that `AESGCM` accepts. -/
def ValidKey (key : Bytes) : Prop := key.length = 16 ∨ key.length = 24 ∨ key.length = 32

instance (key : Bytes) : Decidable (ValidKey key) :=
  inferInstanceAs (Decidable (_ ∨ _ ∨ _))

structure Primitives where
  /-- `AESGCM(key).encrypt(nonce, data, None)`. -/
  encrypt : Bytes → Bytes → Bytes → Except PyError Bytes
  /-- `AESGCM(key).decrypt(nonce, data, None)`. -/
  decrypt : Bytes → Bytes → Bytes → Except PyError Bytes
  /-- `lzma.compress(data, preset=preset)`. -/
  compress : ℕ → Bytes → Bytes
  /-- `lzma.decompress(data)`. -/
  decompress : Bytes → Except PyError Bytes
  /-- `hashlib.sha256(data).digest()`. -/
  sha256 : Bytes → Bytes
  encrypt_ok : ∀ {key : Bytes} (nonce : Nonce) (data : Bytes), ValidKey key →
    ∃ ct, encrypt key nonce data = .ok ct
  length_encrypt : ∀ {key : Bytes} {nonce : Nonce} {data ct : Bytes},
    encrypt key nonce data = .ok ct → ct.length = data.length + 16
  decrypt_encrypt : ∀ {key : Bytes} {nonce : Nonce} {data ct : Bytes},
    encrypt key nonce data = .ok ct → decrypt key nonce ct = .ok data
  decompress_compress : ∀ preset data, decompress (compress preset data) = .ok data
  decompress_nil : decompress [] = .error .lzmaError
  length_sha256 : ∀ data, (sha256 data).length = 32

namespace Primitives

variable (P : Primitives)

/-- A compressed stream is never empty: an empty one does not decompress. -/
theorem compress_ne_nil (preset : ℕ) (data : Bytes) : P.compress preset data ≠ [] := by
  intro h
  have hround := P.decompress_compress preset data
  rw [h, P.decompress_nil] at hround
  exact nomatch hround

/-- A plaintext as a chunk stores it: `lzma.compress(plaintext) if plaintext else b""`. -/
def pack (plaintext : Bytes) : Bytes :=
  if plaintext = [] then [] else P.compress 6 plaintext

/-- What a chunk does to a decrypted payload: `lzma.decompress(c) if c else b""`. -/
def unpack (compressed : Bytes) : Except PyError Bytes :=
  if compressed = [] then .ok [] else P.decompress compressed

theorem unpack_pack (plaintext : Bytes) : P.unpack (P.pack plaintext) = .ok plaintext := by
  rw [pack]
  split
  · rename_i h
    rw [unpack, if_pos rfl, h]
  · rw [unpack, if_neg (P.compress_ne_nil _ _), P.decompress_compress]

end Primitives

theorem validKey_of_length {key : Bytes} (h : key.length = 32) : ValidKey key :=
  Or.inr (Or.inr h)

/-! ### An instance

A stand-in that behaves as documented: a cipher that appends 16 bytes derived from
key and nonce and checks them, a compressor that adds a header byte, and a digest
that pads or cuts to 32 bytes; and another one for where sizes matter. -/

namespace Primitives

/-- The first `n` bytes, padded with zeros. -/
def fitTo (n : ℕ) (data : Bytes) : Bytes := (data ++ List.replicate n 0).take n

theorem length_fitTo (n : ℕ) (data : Bytes) : (fitTo n data).length = n := by
  simp [fitTo]

/-- The tag that `sample` appends. -/
def sampleTag (key nonce : Bytes) : Bytes := fitTo 16 (nonce ++ key)

def sample : Primitives where
  encrypt key nonce data :=
    if ValidKey key then .ok (data ++ sampleTag key nonce) else .error .valueError
  decrypt key nonce data :=
    if ¬ ValidKey key then .error .valueError
    else if data.drop (data.length - 16) = sampleTag key nonce
      then .ok (data.take (data.length - 16))
      else .error .invalidTag
  compress _ data := 253 :: data
  decompress
    | [] => .error .lzmaError
    | header :: data => if header = 253 then .ok data else .error .lzmaError
  sha256 data := fitTo 32 data
  encrypt_ok nonce data h := ⟨_, if_pos h⟩
  length_encrypt := by
    intro key nonce data ct h
    split at h
    · obtain rfl := Except.ok.inj h
      simp [sampleTag, length_fitTo]
    · exact nomatch h
  decrypt_encrypt := by
    intro key nonce data ct h
    split at h
    · rename_i hkey
      obtain rfl := Except.ok.inj h
      have hlen : (data ++ sampleTag key nonce).length - 16 = data.length := by
        simp [sampleTag, length_fitTo]
      rw [if_neg (not_not.mpr hkey), hlen, List.drop_left, if_pos rfl, List.take_left]
    · exact nomatch h
  decompress_compress _ _ := rfl
  decompress_nil := rfl
  length_sha256 := length_fitTo 32

/-- `sample`, with as much overhead as `lzma.compress` has: 88 bytes for a key of 32. -/
def xzSample : Primitives where
  encrypt := sample.encrypt
  decrypt := sample.decrypt
  compress _ data := 253 :: (data ++ List.replicate 55 0)
  decompress
    | [] => .error .lzmaError
    | header :: data =>
      if header = 253 then .ok (data.take (data.length - 55)) else .error .lzmaError
  sha256 := sample.sha256
  encrypt_ok := sample.encrypt_ok
  length_encrypt := sample.length_encrypt
  decrypt_encrypt := sample.decrypt_encrypt
  decompress_compress _ data := by simp
  decompress_nil := rfl
  length_sha256 := sample.length_sha256

end Primitives
