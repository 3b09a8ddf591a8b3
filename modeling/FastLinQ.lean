import FastLinQ.Qed.Cxt.IltPartition
import FastLinQ.Qed.DbRecovery
import FastLinQ.Qed.Dcbx.Setapp
import FastLinQ.Qed.Dmae.Transfer
import FastLinQ.Qed.Int.Attention
import FastLinQ.Qed.Iov.Flr
import FastLinQ.Qed.Iov.Mailbox
import FastLinQ.Qed.Iov.TlvList
import FastLinQ.Qed.Iov.VfChannel
import FastLinQ.Qed.Iov.VlanShadow
import FastLinQ.Qed.Iwarp.Owner
import FastLinQ.Qed.Iwarp.Reassembly
import FastLinQ.Qed.Ll2.Consistency
import FastLinQ.Qed.Llh.Refine
import FastLinQ.Qed.Mcp.Reset
import FastLinQ.Qed.Nvm.Write
import FastLinQ.Qed.Ooo.Table
import FastLinQ.Qed.Qm.Btb
import FastLinQ.Qed.Qm.Reconf
import FastLinQ.Qed.Qm.Reinit
import FastLinQ.Qed.Qm.Stop
import FastLinQ.Qed.Qm.Wfq
import FastLinQ.Qed.Rdma.Resources
import FastLinQ.Qed.Spq.OutOfOrder
import FastLinQ.Qede.Rx.Refill
import FastLinQ.Qede.Tx.Failure
import FastLinQ.Qedr.FastReg
import FastLinQ.Qedr.Gsi
import FastLinQ.Qedr.Populate
import FastLinQ.Qedr.RecvCompletions
import FastLinQ.Qedr.SendCompletions
import FastLinQ.Qedr.SendElems
