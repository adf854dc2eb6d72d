import Onx.DataStructures.Shard

/-!
# Block headers

The header layout and the block hash.  `BlockHeader.toBytes_inj`: the bytes determine the header, so
two headers with one hash are equal or a SHA-256 collision.
-/

namespace Onx

structure BlockHeader where
  magicConstructor : Uint32
  shard : ShardIdent
  seqNo : Uint32
  flags : Uint16
  genUtime : Uint32
  startLt : Uint64
  endLt : Uint64
  prevKeyBlock : Uint32
  prevRefHash : Uint256
  /-- zero unless the block is a merge result -/
  prevRefHash2 : Uint256
  masterRefHash : Uint256
  stateRootHash : Uint256
  inMsgRootHash : Uint256
  outMsgRootHash : Uint256
deriving DecidableEq

namespace BlockHeader

def BYTE_LENGTH : Nat := 4 + 12 + 4 + 2 + 4 + 8 + 8 + 4 + 32 + 32 + 32 + 32 + 32 + 32

def toBytes (h : BlockHeader) : Bytes :=
  encodeWord 4 h.magicConstructor ++ h.shard.toBytes ++ encodeWord 4 h.seqNo
    ++ encodeWord 2 h.flags ++ encodeWord 4 h.genUtime ++ encodeWord 8 h.startLt
    ++ encodeWord 8 h.endLt ++ encodeWord 4 h.prevKeyBlock ++ encodeWord 32 h.prevRefHash
    ++ encodeWord 32 h.prevRefHash2 ++ encodeWord 32 h.masterRefHash
    ++ encodeWord 32 h.stateRootHash ++ encodeWord 32 h.inMsgRootHash
    ++ encodeWord 32 h.outMsgRootHash

theorem length_toBytes (h : BlockHeader) : h.toBytes.length = BYTE_LENGTH := by
  simp [toBytes, BYTE_LENGTH]

/-- **The serialized header determines the header.** -/
theorem toBytes_inj {h h' : BlockHeader} (e : h.toBytes = h'.toBytes) : h = h' := by
  unfold toBytes at e
  obtain ⟨e, hout⟩ := append_inj_be (by simp) e
  obtain ⟨e, hin⟩ := append_inj_be (by simp) e
  obtain ⟨e, hstate⟩ := append_inj_be (by simp) e
  obtain ⟨e, hmaster⟩ := append_inj_be (by simp) e
  obtain ⟨e, hprev2⟩ := append_inj_be (by simp) e
  obtain ⟨e, hprev⟩ := append_inj_be (by simp) e
  obtain ⟨e, hkey⟩ := append_inj_be (by simp) e
  obtain ⟨e, hend⟩ := append_inj_be (by simp) e
  obtain ⟨e, hstart⟩ := append_inj_be (by simp) e
  obtain ⟨e, htime⟩ := append_inj_be (by simp) e
  obtain ⟨e, hflags⟩ := append_inj_be (by simp) e
  obtain ⟨e, hseq⟩ := append_inj_be (by simp) e
  obtain ⟨hmagic, hshard⟩ := append_inj_be (by simp) e
  obtain ⟨magic, shard, seq, flags, time, start, fin, key, prev, prev2, master, state, inm, out⟩ := h
  rw [BlockHeader.mk.injEq]
  exact ⟨encodeWord_inj (n:=4) rfl hmagic, ShardIdent.toBytes_inj hshard,
    encodeWord_inj (n:=4) rfl hseq, encodeWord_inj (n:=2) rfl hflags,
    encodeWord_inj (n:=4) rfl htime, encodeWord_inj (n:=8) rfl hstart,
    encodeWord_inj (n:=8) rfl hend, encodeWord_inj (n:=4) rfl hkey,
    encodeWord_inj (n:=32) rfl hprev, encodeWord_inj (n:=32) rfl hprev2,
    encodeWord_inj (n:=32) rfl hmaster, encodeWord_inj (n:=32) rfl hstate,
    encodeWord_inj (n:=32) rfl hin, encodeWord_inj (n:=32) rfl hout⟩

def DOMAIN_TAG : DomainTag := BLOCK_HEADER_V1

def blockHash (c : Crypto) (h : BlockHeader) : Uint256 := domainHash c DOMAIN_TAG h.toBytes

end BlockHeader

end Onx
