import AegisDB.Library.Bytes

/-!
# Authenticated encryption

An authenticated encryption of bytes under a key and a nonce, and the usual way to keep what was
encrypted: with the nonce in front.
-/

namespace AegisDB

/-- The nonce of an encryption, of twelve bytes. -/
structure Nonce where
  bytes : Bytes
  length_eq : bytes.length = 12

/-- An authenticated encryption, of which a text decrypts under the key that it was encrypted under
to what was encrypted, and under no other key. -/
structure Aes256Gcm (κ : Type*) where
  encrypt : κ → Bytes → Bytes → Except String Bytes
  decrypt : κ → Bytes → Bytes → Except String Bytes
  decrypt_encrypt : ∀ {key nonce plaintext ciphertext},
    encrypt key nonce plaintext = .ok ciphertext → decrypt key nonce ciphertext = .ok plaintext
  authentic : ∀ {key key' nonce plaintext plaintext' ciphertext},
    encrypt key nonce plaintext = .ok ciphertext →
      decrypt key' nonce ciphertext = .ok plaintext' → key' = key

end AegisDB
