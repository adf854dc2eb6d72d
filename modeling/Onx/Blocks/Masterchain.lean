import Onx.Blocks.Validity

/-!
# Masterchain coupling

The shard configuration that a masterchain block carries beside its header, and the checks that
tie a shard block to the masterchain.
-/

namespace Onx.Blocks

/-- the latest block of one active shard -/
structure ShardEntry where
  shard : ShardIdent
  blockHash : Uint256
  seqNo : Uint32
deriving DecidableEq

structure MasterchainBlockExtra where
  shardEntries : List ShardEntry
deriving DecidableEq

/-- neighbouring entries (`windows(2)`) ascend by the bytes of their shards -/
def validateEntries : List ShardEntry → Except BlocksError Unit
  | a :: b :: rest =>
    if a.shard.toBytes = b.shard.toBytes then .error .duplicateShardEntry
    else if a.shard.toBytes > b.shard.toBytes then .error .unsortedShardEntries
    else validateEntries (b :: rest)
  | _ => .ok ()

namespace MasterchainBlockExtra

def validate (x : MasterchainBlockExtra) : Except BlocksError Unit := validateEntries x.shardEntries

/-- the shard block with this hash and sequence number is committed here -/
def isCanonical (x : MasterchainBlockExtra) (shard : ShardIdent) (blockHash : Uint256)
    (seqNo : Uint32) : Bool :=
  x.shardEntries.any (fun entry =>
    decide (entry.shard = shard) && decide (entry.blockHash = blockHash)
      && decide (entry.seqNo = seqNo))

end MasterchainBlockExtra

/-- a masterchain block refers to no masterchain block, a shard block to the one supplied -/
def validateMasterRef (c : Crypto) (header : BlockHeader) (resolved : Option BlockHeader) :
    Except BlocksError Unit :=
  if header.shard.workchainId.isMasterchain then
    if header.masterRefHash ≠ 0 then .error .invalidMasterchainReference else .ok ()
  else match resolved with
    | some masterchainBlock =>
      if masterchainBlock.shard.workchainId.isMasterchain
          ∧ header.masterRefHash = masterchainBlock.blockHash c then .ok ()
      else .error .invalidMasterchainReference
    | none => .error .invalidMasterchainReference

end Onx.Blocks
