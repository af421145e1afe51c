import PktBaffle.Bpf

namespace PktBaffle.Pkttap
open Bpf

/-- `struct sock_fprog`, with the instructions its pointer leads to. -/
structure SockFprog where
  len : UInt16
  filter : List Insn

/-- `struct bpf_program` of macOS and of Npcap. -/
structure BpfProgram where
  bfLen : UInt32
  bfInsns : List Insn

/-- What the kernel reads through the pointer. -/
def SockFprog.read (prog : SockFprog) : List Insn := prog.filter.take prog.len.toNat

def BpfProgram.read (prog : BpfProgram) : List Insn := prog.bfInsns.take prog.bfLen.toNat

/-- The argument of `SO_ATTACH_FILTER` in `open_inner`: the length is cast to `u16`. -/
def sockFprog (insns : List Insn) : SockFprog := ⟨UInt16.ofNat insns.length, insns⟩

/-- The argument of `BIOCSETF` and of `pcap_setfilter` in `set_filter`: it is cast to `u32`. -/
def bpfProgram (insns : List Insn) : BpfProgram := ⟨UInt32.ofNat insns.length, insns⟩

end PktBaffle.Pkttap
