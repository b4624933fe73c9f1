import Xv6Container.Lib.Fields

/-!
# ELF files

`elf.h`: the fields of the headers that `exec` looks at, as they lie in the file.
-/

namespace Xv6Container

structure Elfhdr where
  magic : ℕ
  entry : ℕ
  phoff : ℕ
  phnum : ℕ

/-- `sizeof(struct elfhdr)`. -/
def elfhdrSize : ℕ := 52

def Elfhdr.decode (bytes : List UInt8) : Elfhdr :=
  let b : Block elfhdrSize := Block.zero.patch 0 bytes
  ⟨b.word 0, b.word 6, b.word 7, b.half 22⟩

structure Proghdr where
  type : ℕ
  off : ℕ
  vaddr : ℕ
  filesz : ℕ
  memsz : ℕ

/-- `sizeof(struct proghdr)`. -/
def proghdrSize : ℕ := 32

def Proghdr.decode (bytes : List UInt8) : Proghdr :=
  let b : Block proghdrSize := Block.zero.patch 0 bytes
  ⟨b.word 0, b.word 1, b.word 2, b.word 4, b.word 5⟩

def ELF_MAGIC : ℕ := 0x464C457F

def ELF_PROG_LOAD : ℕ := 1

end Xv6Container
