import PktBaffle.Proofs.Optimizer.Preserves
import PktBaffle.Proofs.Parser.Grammar
import PktBaffle.Proofs.Parser.Numbers
import PktBaffle.Proofs.Parser.Networks
import PktBaffle.Proofs.Parser.Offsets
import PktBaffle.Proofs.Lexer.Addresses
import PktBaffle.Proofs.Lexer.Integers
import PktBaffle.Proofs.Classic.Boolean
import PktBaffle.Proofs.Classic.Predicates
import PktBaffle.Proofs.Ebpf.Memory
import PktBaffle.Proofs.Ebpf.HostOrder
import PktBaffle.Proofs.Prefix
import PktBaffle.Proofs.RawIp
import PktBaffle.Proofs.Constants
import PktBaffle.Proofs.Optimizer.Dedup
import PktBaffle.Proofs.ExprOps
import PktBaffle.Proofs.Classic.Recursion
import PktBaffle.Proofs.VmLoop
import PktBaffle.Proofs.Pkttap.Dump
import PktBaffle.Proofs.Pkttap.Geometry
import PktBaffle.Proofs.Pkttap.RingWalk
import PktBaffle.Proofs.Pkttap.Batch
import PktBaffle.Proofs.Lexer.Positions
import PktBaffle.Proofs.Pkttap.FileFilters
import PktBaffle.Proofs.Pkttap.Snaplen
import PktBaffle.Proofs.Pkttap.HandOver
import PktBaffle.Proofs.Operands
import PktBaffle.Proofs.TransAccess
import PktBaffle.Proofs.Parity
import PktBaffle.Proofs.Classic.Valid
import PktBaffle.Proofs.Classic.Scratch
import PktBaffle.Proofs.Classic.Decapsulation
import PktBaffle.Proofs.Classic.Blocks
import PktBaffle.Forward.Reach
import PktBaffle.Pkttap.Attach
import PktBaffle.Proofs.Classic.Truncation
import PktBaffle.Proofs.Ebpf.Flow
import PktBaffle.Proofs.Ebpf.Loadable
import PktBaffle.Proofs.Pkttap.Attach
