import Amqpgram.Library.Sampler
import Amqpgram.Library.Words
import Amqpgram.Library.Tokens
import Amqpgram.Library.Abnf
import Amqpgram.Machine
import Amqpgram.Grammar.Parser
import Amqpgram.Grammar.Files
import Amqpgram.Grammar.Loading
import Amqpgram.Fuzzer.Utils
import Amqpgram.Fuzzer.Codecs
import Amqpgram.Grammar.Generator
import Amqpgram.Grammar.Spelling
import Amqpgram.Grammar.Sampling
import Amqpgram.Grammar.Reading
import Amqpgram.Grammar.Generation
import Amqpgram.Grammar.Soundness
import Amqpgram.Grammar.Completeness
import Amqpgram.Fuzzer.Packet
import Amqpgram.Fuzzer.Encoder
import Amqpgram.Grammar.Fuel
import Amqpgram.Fuzzer.Connection
import Amqpgram.Fuzzer.Messages
import Amqpgram.Fuzzer.Amqp
import Amqpgram.Fuzzer.Deciders
import Amqpgram.Library.Mailbox
import Amqpgram.Fuzzer.ChannelThread
import Amqpgram.Fuzzer.Listener
import Amqpgram.Fuzzer.Received
import Amqpgram.Fuzzer.Bounds
import Amqpgram.Fuzzer.Negotiation
import Amqpgram.Fuzzer.Handover
import Amqpgram.Fuzzer.Stopping
import Amqpgram.Fuzzer.Dialogue
import Amqpgram.Fuzzer.Conversation
import Amqpgram.Grammar.Ranges
import Amqpgram.Grammar.Repetitions
import Amqpgram.Grammar.Sizes
import Amqpgram.Grammar.SingleRule
import Amqpgram.Grammar.Literals
import Amqpgram.Fuzzer.Waiting
import Amqpgram.Grammar.Entries
import Amqpgram.Fuzzer.Overwrites
import Amqpgram.Library.Odds
import Amqpgram.Fuzzer.Odds
import Amqpgram.Fuzzer.Lengths
import Amqpgram.Grammar.References
import Amqpgram.Fuzzer.Chains
import Amqpgram.Fuzzer.Splitting
import Amqpgram.Grammar.Comments
import Amqpgram.Fuzzer.Joining
import Amqpgram.Fuzzer.Strategy
import Amqpgram.Grammar.Terminals
import Amqpgram.Fuzzer.StringEntries
import Amqpgram.Fuzzer.FrameKinds
import Amqpgram.Fuzzer.Readers
import Amqpgram.Grammar.Lines
import Amqpgram.Fuzzer.Strings
import Amqpgram.Library.Utf8
import Amqpgram.Grammar.Returning
import Amqpgram.Fuzzer.Safe
import Amqpgram.Grammar.Optionals
import Amqpgram.Library.Blocks
import Amqpgram.Fuzzer.Threads
import Amqpgram.Fuzzer.Writers
import Amqpgram.Library.Buffers
import Amqpgram.Grammar.Trimming
import Amqpgram.Grammar.Growing
import Amqpgram.Grammar.Copying
import Amqpgram.Library.Ownership
import Amqpgram.Grammar.Storage
import Amqpgram.Grammar.Ownership
import Amqpgram.Grammar.Ledger
import Amqpgram.Library.Critical
import Amqpgram.Fuzzer.Counter
import Amqpgram.Library.Interpretations
import Amqpgram.Grammar.Ranked
import Amqpgram.Fuzzer.Versions
import Amqpgram.Fuzzer.Levels
import Amqpgram.Fuzzer.FullChaos
import Amqpgram.Fuzzer.Mixing
import Amqpgram.Library.Delimited
import Amqpgram.Fuzzer.Wire
import Amqpgram.Fuzzer.Lifetimes
import Amqpgram.Fuzzer.ContentFrames
import Amqpgram.Fuzzer.Timing
import Amqpgram.Fuzzer.Options
import Amqpgram.Fuzzer.Ending
